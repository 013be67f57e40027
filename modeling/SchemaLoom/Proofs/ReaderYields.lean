import SchemaLoom.Proofs.AsRead
import SchemaLoom.Proofs.ReaderRuns
import SchemaLoom.Proofs.TokenStream

namespace SchemaLoom

namespace Reader

variable {α β : Type}

/-! What a reader yields from sound tokens: results with a property, and sound
tokens behind it.  The property may also tell how much room is left there. -/

def Yields (reader : Reader α) (room : Nat) (post : α → Nat → Prop) : Prop :=
  ∀ complete tokens result rest, tokens.Sound complete room →
    reader.run tokens = .ok (result, rest) →
    ∃ behind, post result behind ∧ rest.Sound complete behind

/-- Yields results with a property and closes every bracket that it opens. -/
def Keeps (reader : Reader α) (room : Nat) (post : α → Prop) : Prop :=
  reader.Yields room fun result behind => behind = room ∧ post result

theorem Yields.bind {reader : Reader α} {next : α → Reader β} {room : Nat}
    {post : α → Nat → Prop} {post' : β → Nat → Prop}
    (hreader : reader.Yields room post)
    (hnext : ∀ result behind, post result behind → (next result).Yields behind post') :
    (reader >>= next).Yields room post' := by
  intro complete tokens result rest hsound hrun
  obtain ⟨first, middle, hfirst, hrest⟩ := run_bind_eq_ok hrun
  obtain ⟨behind, hpost, hmiddle⟩ := hreader complete tokens first middle hsound hfirst
  exact hnext first behind hpost complete middle result rest hmiddle hrest

theorem Keeps.bind {reader : Reader α} {next : α → Reader β} {room : Nat}
    {post : α → Prop} {post' : β → Nat → Prop} (hreader : reader.Keeps room post)
    (hnext : ∀ result, post result → (next result).Yields room post') :
    (reader >>= next).Yields room post' := by
  refine Yields.bind hreader ?_
  rintro result behind ⟨rfl, hpost⟩
  exact hnext result hpost

theorem Yields.imp {reader : Reader α} {room : Nat} {post post' : α → Nat → Prop}
    (hreader : reader.Yields room post)
    (himp : ∀ result behind, post result behind → post' result behind) :
    reader.Yields room post' := by
  intro complete tokens result rest hsound hrun
  obtain ⟨behind, hpost, hrest⟩ := hreader complete tokens result rest hsound hrun
  exact ⟨behind, himp result behind hpost, hrest⟩

theorem Keeps.imp {reader : Reader α} {room : Nat} {post post' : α → Prop}
    (hreader : reader.Keeps room post) (himp : ∀ result, post result → post' result) :
    reader.Keeps room post' :=
  Yields.imp hreader fun result _ hpost => ⟨hpost.1, himp result hpost.2⟩

theorem yields_pure {result : α} {room : Nat} {post : α → Nat → Prop}
    (hpost : post result room) : (pure result : Reader α).Yields room post := by
  intro complete tokens found rest hsound hrun
  cases hrun
  exact ⟨room, hpost, hsound⟩

theorem keeps_pure {result : α} {room : Nat} {post : α → Prop} (hpost : post result) :
    (pure result : Reader α).Keeps room post :=
  yields_pure ⟨rfl, hpost⟩

theorem yields_failAt (pos : Pos) {room : Nat} {post : α → Nat → Prop} :
    (failAt pos : Reader α).Yields room post := by
  intro complete tokens result rest hsound hrun
  cases hrun

theorem keeps_get {room : Nat} : (get : Reader Tokens).Keeps room fun _ => True := by
  intro complete tokens result rest hsound hrun
  cases hrun
  exact ⟨room, ⟨rfl, trivial⟩, hsound⟩

theorem keeps_position {room : Nat} : position.Keeps room fun _ => True :=
  Keeps.bind keeps_get fun _ _ => keeps_pure trivial

theorem keeps_peek {room : Nat} : peek.Keeps room fun _ => True :=
  Keeps.bind keeps_get fun _ _ => keeps_pure trivial

theorem keeps_nextIs (wanted : Token → Bool) {room : Nat} :
    (nextIs wanted).Keeps room fun _ => True :=
  Keeps.bind keeps_peek fun _ _ => keeps_pure trivial

theorem yields_fail {room : Nat} {post : α → Nat → Prop} :
    (fail : Reader α).Yields room post :=
  Keeps.bind keeps_position fun pos _ => yields_failAt pos

theorem yields_take {meaning : Token → Option α} {room : Nat} {post : α → Nat → Prop}
    (hpost : ∀ token result behind, meaning token = some result → token.ValidName →
      token.roomBehind? room = some behind → post result behind) :
    (take meaning).Yields room post := by
  intro complete tokens result rest hsound hrun
  obtain ⟨pos, token, rfl, hmeaning⟩ := run_take_eq_ok hrun
  obtain ⟨hvalid, behind, hroom, hrest⟩ := hsound
  exact ⟨behind, hpost token result behind hmeaning hvalid hroom, hrest⟩

/-- The room behind a mark, as the scanner counts it. -/
theorem yields_mark (sign : Mark) {room : Nat} :
    (mark sign).Yields room fun _ behind =>
      (Token.mark sign).roomBehind? room = some behind := by
  refine yields_take ?_
  intro token result behind hmeaning _ hroom
  split at hmeaning
  · subst token
    exact hroom
  · cases hmeaning

theorem yields_mark_opens {sign : Mark} {room : Nat} (hopens : sign.opens = true) :
    (mark sign).Yields room fun _ behind => room = behind + 1 :=
  (yields_mark sign).imp fun _ _ hroom => Token.room_of_opens hopens hroom

theorem yields_mark_closes {sign : Mark} {room : Nat} (hcloses : sign.closes = true) :
    (mark sign).Yields room fun _ behind => behind = room + 1 :=
  (yields_mark sign).imp fun _ _ hroom => Token.room_of_closes hcloses hroom

theorem keeps_mark {sign : Mark} {room : Nat} (hopens : sign.opens = false)
    (hcloses : sign.closes = false) : (mark sign).Keeps room fun _ => True :=
  (yields_mark sign).imp fun _ _ hroom =>
    ⟨Token.room_of_plain hopens hcloses hroom, trivial⟩

theorem keeps_take_name {meaning : Token → Option α} {room : Nat} {post : α → Prop}
    (hother : ∀ token, (∀ text, token ≠ .name text) → meaning token = none)
    (hpost : ∀ text result, meaning (.name text) = some result → SchemaLoom.isName text = true →
      post result) :
    (take meaning).Keeps room post := by
  refine yields_take ?_
  intro token result behind hmeaning hvalid hroom
  cases token with
  | name text =>
      cases hroom
      exact ⟨rfl, hpost text result hmeaning hvalid⟩
  | _ => rw [hother _ (by simp)] at hmeaning; cases hmeaning

theorem keeps_name {room : Nat} :
    name.Keeps room fun result => isValidName result = true := by
  refine keeps_take_name (fun token htoken => ?_) (fun text result hmeaning hvalid => ?_)
  · cases token with
    | name text => exact absurd rfl (htoken text)
    | _ => rfl
  · cases hmeaning
    simpa [isValidName] using hvalid

theorem keeps_word (text : String) {room : Nat} :
    (word text).Keeps room fun _ => True := by
  refine keeps_take_name (fun token htoken => ?_) (fun _ _ _ _ => trivial)
  exact if_neg (htoken text.toList)

theorem yields_skipMark (sign : Mark) {room : Nat} :
    (skipMark sign).Yields room fun found behind =>
      if found then (Token.mark sign).roomBehind? room = some behind
      else behind = room := by
  refine Keeps.bind (keeps_nextIs _) ?_
  intro found _
  cases found with
  | false => exact yields_pure rfl
  | true =>
      refine Yields.bind (yields_mark sign) ?_
      intro _ behind hroom
      exact yields_pure hroom

theorem keeps_skipMark {sign : Mark} {room : Nat} (hopens : sign.opens = false)
    (hcloses : sign.closes = false) : (skipMark sign).Keeps room fun _ => True := by
  refine (yields_skipMark sign).imp ?_
  intro found behind hroom
  split at hroom
  · exact ⟨Token.room_of_plain hopens hcloses hroom, trivial⟩
  · exact ⟨hroom, trivial⟩

theorem keeps_skipWord (text : String) {room : Nat} :
    (skipWord text).Keeps room fun _ => True := by
  refine Keeps.bind (keeps_nextIs _) ?_
  intro found _
  cases found with
  | false => exact keeps_pure trivial
  | true =>
      refine Keeps.bind (keeps_word text) ?_
      intro _ _
      exact keeps_pure trivial

/-! Repetition. -/

theorem keeps_manyWithin {starts : Token → Bool} {item : Reader α} {room : Nat}
    {post : α → Prop} (hitem : item.Keeps room post) (bound : Tokens) :
    (manyWithin starts item bound).Keeps room fun items => ∀ item ∈ items, post item := by
  induction bound with
  | done pos => exact keeps_pure (by simp)
  | broken pos => exact keeps_pure (by simp)
  | next pos token bound ih =>
      refine Keeps.bind (keeps_nextIs starts) ?_
      intro found _
      cases found with
      | false => exact keeps_pure (by simp)
      | true =>
          refine Keeps.bind hitem ?_
          intro first hfirst
          refine Keeps.bind ih ?_
          intro rest hrest
          exact keeps_pure (List.forall_mem_cons.mpr ⟨hfirst, hrest⟩)

theorem keeps_many {starts : Token → Bool} {item : Reader α} {room : Nat}
    {post : α → Prop} (hitem : item.Keeps room post) :
    (many starts item).Keeps room fun items => ∀ item ∈ items, post item :=
  Keeps.bind keeps_get fun bound _ => keeps_manyWithin hitem bound

theorem keeps_many1 {starts : Token → Bool} {item : Reader α} {room : Nat}
    {post : α → Prop} (hitem : item.Keeps room post) :
    (many1 starts item).Keeps room fun items =>
      items ≠ [] ∧ ∀ item ∈ items, post item := by
  refine Keeps.bind hitem ?_
  intro first hfirst
  refine Keeps.bind (keeps_many hitem) ?_
  intro rest hrest
  exact keeps_pure ⟨List.cons_ne_nil _ _, List.forall_mem_cons.mpr ⟨hfirst, hrest⟩⟩

theorem keeps_separated {sign : Mark} {item : Reader α} {room : Nat} {post : α → Prop}
    (hopens : sign.opens = false) (hcloses : sign.closes = false)
    (hitem : item.Keeps room post) :
    (separated sign item).Keeps room fun items =>
      items ≠ [] ∧ ∀ item ∈ items, post item := by
  refine Keeps.bind (keeps_skipMark hopens hcloses) ?_
  intro _ _
  refine Keeps.bind hitem ?_
  intro first hfirst
  have hnext : (do mark sign; item : Reader α).Keeps room post :=
    Keeps.bind (keeps_mark hopens hcloses) fun _ _ => hitem
  refine Keeps.bind (keeps_many hnext) ?_
  intro rest hrest
  exact keeps_pure ⟨List.cons_ne_nil _ _, List.forall_mem_cons.mpr ⟨hfirst, hrest⟩⟩

/-- What stands in brackets is read behind one more open bracket. -/
theorem Keeps.bracketed {opening closing : Mark} {body : Reader α} {present : α → β}
    {room : Nat} {post : β → Prop}
    (hopens : opening.opens = true) (hcloses : closing.closes = true)
    (hbody : ∀ inner, room = inner + 1 →
      body.Keeps inner fun result => post (present result)) :
    (do
      mark opening
      let result ← body
      mark closing
      return present result : Reader β).Keeps room post := by
  refine Yields.bind (yields_mark_opens hopens) ?_
  rintro _ inner rfl
  refine Keeps.bind (hbody inner rfl) ?_
  intro result hresult
  refine Yields.bind (yields_mark_closes hcloses) ?_
  rintro _ behind rfl
  exact yields_pure ⟨rfl, hresult⟩

theorem Keeps.optional {opening closing : Mark} {body : Reader α} {present : α → β}
    {absent : β} {room : Nat} {post : β → Prop}
    (hopens : opening.opens = true) (hcloses : closing.closes = true)
    (hbody : ∀ inner, room = inner + 1 →
      body.Keeps inner fun result => post (present result))
    (habsent : post absent) :
    (do
      if ← skipMark opening then
        let result ← body
        mark closing
        return present result
      else return absent : Reader β).Keeps room post := by
  refine Yields.bind (yields_skipMark opening) ?_
  intro found behind hroom
  cases found with
  | false =>
      cases hroom
      exact keeps_pure habsent
  | true =>
      obtain rfl : room = behind + 1 := Token.room_of_opens hopens hroom
      refine Keeps.bind (hbody behind rfl) ?_
      intro result hresult
      refine Yields.bind (yields_mark_closes hcloses) ?_
      rintro _ behind rfl
      exact yields_pure ⟨rfl, hresult⟩

end Reader

end SchemaLoom
