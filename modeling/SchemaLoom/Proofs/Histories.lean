import SchemaLoom.Tree.Forest

namespace SchemaLoom

/-! Histories: a run of steps with the trees that each step found. -/

structure Moment where
  before : Forest
  name : String
  step : Step

namespace Moment

def after (moment : Moment) : Forest :=
  (moment.step.apply moment.before moment.name).1

def reply (moment : Moment) : Reply :=
  (moment.step.apply moment.before moment.name).2

/-- What was to be done, whatever trees there were. -/
def action (moment : Moment) : String × Step :=
  (moment.name, moment.step)

end Moment

namespace Forest

/-- The moments of a run; `none` if it ends at a torn block string. -/
def history? (forest : Forest) : List (String × Step) → Option (List Moment)
  | [] => some []
  | (name, step) :: rest =>
      if step.isTorn forest then none
      else
        let moment : Moment := ⟨forest, name, step⟩
        (moment.after.history? rest).map (moment :: ·)

theorem history?_cons (moment : Moment) (rest : List (String × Step)) :
    moment.before.history? (moment.action :: rest) =
      if moment.step.isTorn moment.before then none
      else (moment.after.history? rest).map (moment :: ·) := rfl

theorem run?_cons (moment : Moment) (rest : List (String × Step)) :
    moment.before.run? (moment.action :: rest) =
      if moment.step.isTorn moment.before then none
      else moment.after.run? rest := by
  rw [run?, List.foldlM_cons, Moment.action, step?]
  split <;> rfl

theorem history?_cons_eq_some (moment : Moment) {rest : List (String × Step)}
    {moments : List Moment}
    (h : moment.before.history? (moment.action :: rest) = some moments) :
    moment.step.isTorn moment.before = false ∧
      ∃ later, moment.after.history? rest = some later ∧ moments = moment :: later := by
  rw [history?_cons] at h
  split at h
  · cases h
  · rename_i htorn
    obtain ⟨later, hlater, rfl⟩ := Option.map_eq_some_iff.mp h
    exact ⟨by simpa using htorn, later, hlater, rfl⟩

theorem map_action_history? {forest : Forest} {steps : List (String × Step)}
    {moments : List Moment} (h : forest.history? steps = some moments) :
    moments.map Moment.action = steps := by
  induction steps generalizing forest moments with
  | nil =>
      cases h
      rfl
  | cons first rest ih =>
      obtain ⟨_, later, hlater, rfl⟩ :=
        history?_cons_eq_some ⟨forest, first.1, first.2⟩ h
      rw [List.map_cons, ih hlater]
      rfl

/-- A tree that is put where it stands changes nothing. -/
theorem set_self (forest : Forest) (name : String) :
    forest.set name (forest name) = forest := by
  funext other
  unfold set
  split
  · rename_i hother
    rw [hother]
  · rfl

end Forest

end SchemaLoom
