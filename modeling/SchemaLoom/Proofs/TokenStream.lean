import SchemaLoom.Token.Scan

namespace SchemaLoom

/-! What holds of the tokens of any text: names are valid, and brackets never open
beyond the room that is left for them. -/

def Mark.opens : Mark → Bool
  | .openParen | .openBracket | .openBrace => true
  | _ => false

def Mark.closes : Mark → Bool
  | .closeParen | .closeBracket | .closeBrace => true
  | _ => false

namespace Token

theorem room_of_opens {sign : Mark} {room behind : Nat} (hopens : sign.opens = true)
    (h : (Token.mark sign).roomBehind? room = some behind) : room = behind + 1 := by
  cases sign <;> simp [Mark.opens] at hopens <;>
    simp [roomBehind?] at h <;> omega

theorem room_of_closes {sign : Mark} {room behind : Nat} (hcloses : sign.closes = true)
    (h : (Token.mark sign).roomBehind? room = some behind) : behind = room + 1 := by
  cases sign <;> simp [Mark.closes] at hcloses <;>
    simp [roomBehind?] at h <;> omega

theorem room_of_plain {sign : Mark} {room behind : Nat} (hopens : sign.opens = false)
    (hcloses : sign.closes = false)
    (h : (Token.mark sign).roomBehind? room = some behind) : behind = room := by
  cases sign <;> simp [Mark.opens, Mark.closes] at hopens hcloses <;>
    simp [roomBehind?] at h <;> omega

/-- A name token holds a valid name. -/
def ValidName : Token → Prop
  | .name text => isName text = true
  | _ => True

end Token

namespace Tokens

/-- Tokens with valid names whose brackets fit into the room.  They are complete if
they go on to the end of the text. -/
def Sound (complete : Bool) : Nat → Tokens → Prop
  | _, .done _ => complete = true
  | _, .broken _ => complete = false
  | room, .next _ token rest =>
      token.ValidName ∧
        ∃ behind, token.roomBehind? room = some behind ∧ rest.Sound complete behind

end Tokens

theorem isName_cons_takeWhile {first : Char} (rest : List Char)
    (hfirst : isNameStart first = true) :
    isName (first :: rest.takeWhile isNameRest) = true := by
  simp [isName, hfirst]

theorem numberToken?_validName {text : List Char} {token : Token}
    (h : numberToken? text = some token) : token.ValidName := by
  unfold numberToken? at h
  split at h
  · cases h
    trivial
  · split at h <;> cases h
    trivial

theorem readWord_validName {char : Char} {rest behind : List Char} {token : Token}
    (h : readWord char rest = some (token, behind)) : token.ValidName := by
  unfold readWord at h
  split at h
  · rename_i hstart
    cases h
    exact isName_cons_takeWhile rest hstart
  · split at h
    · obtain ⟨number, hnumber, heq⟩ := Option.map_eq_some_iff.mp h
      cases heq
      exact numberToken?_validName hnumber
    · obtain ⟨sign, _, heq⟩ := Option.map_eq_some_iff.mp h
      cases heq
      trivial

theorem readToken_validName {text behind : List Char} {token : Token}
    (h : readToken text = some (token, behind)) : token.ValidName := by
  unfold readToken at h
  split at h
  · cases h
  · obtain ⟨found, _, heq⟩ := Option.map_eq_some_iff.mp h
    cases heq
    trivial
  · obtain ⟨found, _, heq⟩ := Option.map_eq_some_iff.mp h
    cases heq
    trivial
  · cases h
    trivial
  · exact readWord_validName h

/-- The tokens of a text are sound, whether or not they reach its end. -/
theorem exists_sound_scanFrom (pos : Pos) (room : Nat) (text : List Char) :
    ∃ complete, (scanFrom pos room text).Sound complete room := by
  fun_induction scanFrom pos room text with
  | case1 => exact ⟨true, rfl⟩
  | case2 => exact ⟨false, rfl⟩
  | case3 => exact ⟨false, rfl⟩
  | case4 pos room text skipped hskipped token behind hread room' hroom ih =>
      obtain ⟨complete, hcomplete⟩ := ih
      exact ⟨complete, readToken_validName hread, room', hroom, hcomplete⟩

theorem exists_sound_scan (text : List Char) :
    ∃ complete, (scan text).Sound complete bracketLimit :=
  exists_sound_scanFrom .start bracketLimit text

end SchemaLoom
