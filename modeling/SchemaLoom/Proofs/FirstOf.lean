import SchemaLoom.Document.Merge

namespace SchemaLoom

/-! The place of the first definition that is wanted: where it is found, taken out or
changed, and where another one is merged into it. -/

/-- The first definition that is wanted, between those before and behind it. -/
structure FirstOf (wanted : Definition → Bool) (definitions front : List Definition)
    (found : Definition) (behind : List Definition) : Prop where
  split : definitions = front ++ found :: behind
  unwanted : ∀ other ∈ front, wanted other = false
  wanted : wanted found = true

theorem exists_firstOf {wanted : Definition → Bool} {definitions : List Definition}
    {found : Definition} (h : definitions.find? wanted = some found) :
    ∃ front behind, FirstOf wanted definitions front found behind := by
  obtain ⟨hfound, front, behind, hsplit, hfront⟩ := List.find?_eq_some_iff_append.mp h
  exact ⟨front, behind, hsplit, by simpa using hfront, hfound⟩

namespace FirstOf

variable {wanted : Definition → Bool} {definitions front behind : List Definition}
  {found : Definition}

theorem find?_eq (h : FirstOf wanted definitions front found behind) :
    definitions.find? wanted = some found :=
  List.find?_eq_some_iff_append.mpr
    ⟨h.wanted, front, behind, h.split, by simpa using h.unwanted⟩

theorem findIdx?_eq (h : FirstOf wanted definitions front found behind) :
    definitions.findIdx? wanted = some front.length := by
  rw [h.split, List.findIdx?_append, List.findIdx?_eq_none_iff.mpr h.unwanted,
    List.findIdx?_cons, if_pos h.wanted]
  simp

theorem getElem?_eq (h : FirstOf wanted definitions front found behind) :
    definitions[front.length]? = some found := by
  simp [h.split]

theorem eraseP_eq (h : FirstOf wanted definitions front found behind) :
    definitions.eraseP wanted = front ++ behind := by
  rw [h.split, List.eraseP_append_right _ (by simpa using h.unwanted),
    List.eraseP_cons_of_pos h.wanted]

theorem filter_eq (h : FirstOf wanted definitions front found behind) :
    definitions.filter wanted = found :: (front ++ behind).filter wanted := by
  have hfront : front.filter wanted = [] := by
    simpa [List.filter_eq_nil_iff] using h.unwanted
  simp [h.split, hfront, h.wanted]

theorem eraseIdx_eq (h : FirstOf wanted definitions front found behind) :
    definitions.eraseIdx front.length = front ++ behind := by
  simp [h.split, List.eraseIdx_append]

theorem set_eq (h : FirstOf wanted definitions front found behind)
    (definition : Definition) :
    definitions.set front.length definition = front ++ definition :: behind := by
  simp [h.split]

theorem modify_eq (h : FirstOf wanted definitions front found behind)
    (change : Definition → Definition) :
    definitions.modify front.length change = front ++ change found :: behind := by
  rw [h.split, List.modify_eq_take_cons_drop (by simp)]
  simp

theorem mergeInto_eq (h : FirstOf wanted definitions front found behind)
    (policy : Policy) (incoming : Definition) :
    mergeInto policy wanted incoming definitions =
      front ++ (found.merge policy incoming).2 :: behind := by
  obtain ⟨rfl, hfront, hfound⟩ := h
  induction front with
  | nil => simp [mergeInto, hfound]
  | cons first front ih =>
      obtain ⟨hfirst, hfront⟩ := List.forall_mem_cons.mp hfront
      rw [List.cons_append, mergeInto, hfirst, ih hfront]
      rfl

end FirstOf

theorem mergeInto_of_none {policy : Policy} {wanted : Definition → Bool}
    {incoming : Definition} {held : List Definition}
    (hnone : ∀ ours ∈ held, wanted ours = false) :
    mergeInto policy wanted incoming held = held ++ [incoming] := by
  induction held with
  | nil => rfl
  | cons first rest ih =>
      obtain ⟨hfirst, hrest⟩ := List.forall_mem_cons.mp hnone
      rw [mergeInto, hfirst, ih hrest]
      rfl

end SchemaLoom
