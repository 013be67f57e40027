import SchemaLoom.Document.Parser

namespace SchemaLoom.Reader

variable {α β : Type}

/-! Runs of the basic readers, one equation for each. -/

theorem run_bind_ok {reader : Reader α} {next : α → Reader β} {tokens middle : Tokens}
    {first : α} (h : reader.run tokens = .ok (first, middle)) :
    (reader >>= next).run tokens = (next first).run middle := by
  rw [StateT.run_bind, h]
  rfl

theorem run_bind_error {reader : Reader α} {next : α → Reader β} {tokens : Tokens}
    {error : ParseError} (h : reader.run tokens = .error error) :
    (reader >>= next).run tokens = .error error := by
  rw [StateT.run_bind, h]
  rfl

theorem run_bind_eq_ok {reader : Reader α} {next : α → Reader β} {tokens rest : Tokens}
    {result : β} (h : (reader >>= next).run tokens = .ok (result, rest)) :
    ∃ first middle, reader.run tokens = .ok (first, middle) ∧
      (next first).run middle = .ok (result, rest) := by
  cases hfirst : reader.run tokens with
  | error error =>
      rw [run_bind_error hfirst] at h
      cases h
  | ok found =>
      obtain ⟨first, middle⟩ := found
      rw [run_bind_ok hfirst] at h
      exact ⟨first, middle, rfl, h⟩

@[simp] theorem run_get (tokens : Tokens) :
    (get : Reader Tokens).run tokens = .ok (tokens, tokens) := rfl

@[simp] theorem run_peek (tokens : Tokens) :
    peek.run tokens = .ok (tokens.head?, tokens) := rfl

@[simp] theorem run_position (tokens : Tokens) :
    position.run tokens = .ok (tokens.pos, tokens) := rfl

@[simp] theorem run_nextIs (wanted : Token → Bool) (tokens : Tokens) :
    (nextIs wanted).run tokens = .ok (tokens.head?.any wanted, tokens) := rfl

theorem run_take_some {meaning : Token → Option α} {token : Token} {result : α}
    (h : meaning token = some result) (pos : Pos) (rest : Tokens) :
    (take meaning).run (.next pos token rest) = .ok (result, rest) := by
  unfold take
  rw [run_bind_ok (run_get _)]
  simp only [h]
  rfl

theorem run_take_none {meaning : Token → Option α} {tokens : Tokens}
    (h : ∀ token, tokens.head? = some token → meaning token = none) :
    (take meaning).run tokens = .error (.unexpected tokens.pos) := by
  unfold take
  rw [run_bind_ok (run_get _)]
  cases tokens with
  | done pos => rfl
  | broken pos => rfl
  | next pos token rest =>
      simp only [h token rfl]
      rfl

theorem run_take_eq_ok {meaning : Token → Option α} {tokens rest : Tokens} {result : α}
    (h : (take meaning).run tokens = .ok (result, rest)) :
    ∃ pos token, tokens = .next pos token rest ∧ meaning token = some result := by
  cases hhead : tokens.head?.bind meaning with
  | none =>
      rw [run_take_none fun token htoken => by simpa [htoken] using hhead] at h
      cases h
  | some found =>
      cases tokens with
      | done pos => cases hhead
      | broken pos => cases hhead
      | next pos token tail =>
          rw [run_take_some hhead] at h
          cases h
          exact ⟨pos, token, rfl, hhead⟩

end SchemaLoom.Reader
