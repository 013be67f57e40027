import SchemaLoom.Proofs.MergeFold

namespace SchemaLoom

/-! Merging a merged tree again.  Its keys are unique, so no definition meets another
one: those of root types come to the front, and the others keep their order. -/

def Definition.isRoot (roots : List String) (definition : Definition) : Bool :=
  roots.any fun root => definition.name? = some root

/-- The definitions of root types in the order in which the roots are first listed,
and behind them all others in their own order. -/
def rootsFirst (roots : List String) (definitions : List Definition) : List Definition :=
  roots.eraseDups.flatMap (fun root =>
      definitions.filter fun definition => definition.name? = some root) ++
    definitions.filter fun definition => !definition.isRoot roots

/-! What root types take. -/

theorem takeRoots_perm (roots : List String) (definitions : List Definition) :
    ((takeRoots roots definitions).1 ++ (takeRoots roots definitions).2).Perm
      definitions := by
  induction roots generalizing definitions with
  | nil => exact .refl definitions
  | cons root roots ih =>
      cases hfound : definitions.find? (Matcher.name root).selects with
      | none => simpa [takeRoots, hfound] using ih definitions
      | some found =>
          obtain ⟨front, behind, hfirst⟩ := exists_firstOf hfound
          have hrest := ih (front ++ behind)
          simp only [takeRoots, hfound, hfirst.eraseP_eq, List.cons_append]
          rw [hfirst.split]
          exact (hrest.cons found).trans List.perm_middle.symm

/-- Without repeated keys, a root takes all definitions of its name. -/
theorem takeRoots_cons_of_nodup (root : String) (roots : List String)
    {definitions : List Definition} (h : (definitions.map Definition.key).Nodup) :
    takeRoots (root :: roots) definitions =
      (ofKey (.named root) definitions ++
          (takeRoots roots (definitions.filter fun other => other.key ≠ .named root)).1,
        (takeRoots roots (definitions.filter fun other => other.key ≠ .named root)).2) := by
  have hall : ∀ {others : List Definition}, ofKey (.named root) others = [] →
      (others.filter fun other => other.key ≠ .named root) = others := by
    intro others hnone
    rw [List.filter_eq_self]
    intro other hother
    simpa using List.filter_eq_nil_iff.mp hnone other hother
  cases hfound : definitions.find? (Matcher.name root).selects with
  | none =>
      have hnone := ofKey_of_find?_eq_none hfound
      simp only [takeRoots, hfound, hnone, hall hnone, List.nil_append]
  | some found =>
      have hkey := Definition.selects_name_iff.mp (List.find?_some hfound)
      have hofKey := find?_selects_ofKey hfound
      have hnone : ofKey (.named root)
          (definitions.eraseP (Matcher.name root).selects) = [] := by
        have hlength := length_ofKey_le h (.named root)
        rw [hofKey, List.length_cons] at hlength
        exact List.eq_nil_of_length_eq_zero (by omega)
      have hrest : (definitions.filter fun other => other.key ≠ .named root) =
          definitions.eraseP (Matcher.name root).selects := by
        obtain ⟨front, behind, hfirst⟩ := exists_firstOf hfound
        rw [hfirst.eraseP_eq] at hnone ⊢
        rw [hfirst.split, ← hall hnone]
        simp [hkey]
      simp only [takeRoots, hfound, hofKey, hnone, hrest, List.singleton_append]

private theorem filter_eraseDups (keep : String → Bool) (names : List String) :
    names.eraseDups.filter keep = (names.filter keep).eraseDups := by
  match names with
  | [] => rfl
  | name :: names =>
      have hshorter : (names.filter fun other => !other == name).length < names.length + 1 :=
        Nat.lt_succ_of_le (List.length_filter_le _ _)
      have hrest := filter_eraseDups keep (names.filter fun other => !other == name)
      rw [List.eraseDups_cons, List.filter_cons, List.filter_cons]
      split
      · rw [List.eraseDups_cons, hrest, List.filter_filter, List.filter_filter]
        simp only [Bool.and_comm]
      · rename_i hname
        rw [hrest, List.filter_filter]
        congr 1
        apply List.filter_congr
        intro other _
        by_cases hother : other = name
        · simp [hother, hname]
        · simp [hother]
termination_by names.length

theorem ofKey_filter_ne (root other : String) (definitions : List Definition) :
    ofKey (.named other) (definitions.filter fun held => held.key ≠ .named root) =
      if other = root then [] else ofKey (.named other) definitions := by
  rw [ofKey, List.filter_filter]
  split
  · rename_i hother
    rw [List.filter_eq_nil_iff, hother]
    simp
  · rename_i hother
    apply List.filter_congr
    intro held _
    by_cases hkey : held.key = .named other
    · simp [hkey, hother]
    · simp [hkey]

theorem takeRoots_of_nodup (roots : List String) {definitions : List Definition}
    (h : (definitions.map Definition.key).Nodup) :
    takeRoots roots definitions =
      (roots.eraseDups.flatMap (fun root => ofKey (.named root) definitions),
        definitions.filter fun definition => !definition.isRoot roots) := by
  induction roots generalizing definitions with
  | nil => simp [takeRoots, Definition.isRoot]
  | cons root roots ih =>
      have hothers : ((definitions.filter fun other => other.key ≠ .named root).map
          Definition.key).Nodup := h.sublist (List.filter_sublist.map Definition.key)
      have htaken : roots.eraseDups.flatMap (fun name =>
            if name = root then [] else ofKey (.named name) definitions) =
          (roots.filter fun name => !name == root).eraseDups.flatMap
            fun name => ofKey (.named name) definitions := by
        rw [← filter_eraseDups]
        induction roots.eraseDups with
        | nil => rfl
        | cons name names ih => by_cases hname : name = root <;> simp [hname, ih]
      rw [takeRoots_cons_of_nodup root roots h, ih hothers, List.eraseDups_cons,
        List.flatMap_cons, ← htaken, List.filter_filter]
      simp only [ofKey_filter_ne]
      congr 1
      apply List.filter_congr
      intro definition _
      simp [Definition.isRoot, Definition.key_eq_named_iff, Bool.and_comm]

theorem rootsFirst_eq (roots : List String) {definitions : List Definition}
    (h : (definitions.map Definition.key).Nodup) :
    rootsFirst roots definitions =
      (takeRoots roots definitions).1 ++ (takeRoots roots definitions).2 := by
  rw [takeRoots_of_nodup roots h, rootsFirst]
  simp only [ofKey_named]

theorem rootsFirst_perm (roots : List String) {definitions : List Definition}
    (h : (definitions.map Definition.key).Nodup) :
    (rootsFirst roots definitions).Perm definitions := by
  rw [rootsFirst_eq roots h]
  exact takeRoots_perm roots definitions

theorem ofKey_eq_of_perm {definitions others : List Definition}
    (hperm : definitions.Perm others) (h : (others.map Definition.key).Nodup) (key : Key) :
    ofKey key definitions = ofKey key others := by
  have hkey : (ofKey key definitions).Perm (ofKey key others) := hperm.filter _
  have hlength := length_ofKey_le h key
  cases hothers : ofKey key others with
  | nil =>
      rw [hothers] at hkey
      exact List.perm_nil.mp hkey
  | cons first rest =>
      rw [hothers, List.length_cons] at hlength
      obtain rfl : rest = [] := List.eq_nil_of_length_eq_zero (by omega)
      rw [hothers] at hkey
      exact List.perm_singleton.mp hkey

/-- Root types that are in front already stay there. -/
theorem rootsFirst_rootsFirst (roots : List String) {definitions : List Definition}
    (h : (definitions.map Definition.key).Nodup) :
    rootsFirst roots (rootsFirst roots definitions) = rootsFirst roots definitions := by
  have hroot : ∀ root, (rootsFirst roots definitions).filter
        (fun definition => definition.name? = some root) =
      definitions.filter fun definition => definition.name? = some root := by
    intro root
    rw [← ofKey_named, ← ofKey_named]
    exact ofKey_eq_of_perm (rootsFirst_perm roots h) h (.named root)
  have hothers : (rootsFirst roots definitions).filter
        (fun definition => !definition.isRoot roots) =
      definitions.filter fun definition => !definition.isRoot roots := by
    have hfront : (roots.eraseDups.flatMap fun root => definitions.filter fun definition =>
        definition.name? = some root).filter
          (fun definition => !definition.isRoot roots) = [] := by
      rw [List.filter_eq_nil_iff]
      intro definition hdefinition
      obtain ⟨root, hroot, hdefinition⟩ := List.mem_flatMap.mp hdefinition
      have hname := (List.mem_filter.mp hdefinition).2
      have hisRoot : definition.isRoot roots = true :=
        List.any_eq_true.mpr ⟨root, List.mem_eraseDups.mp hroot, hname⟩
      simp [hisRoot]
    rw [rootsFirst, List.filter_append, hfront, List.nil_append, List.filter_filter]
    simp only [Bool.and_self]
  rw [rootsFirst, hothers]
  simp only [hroot]
  rfl

/-! Merging one tree. -/

theorem Event.foldl_upsert_of_nodup {events : List Event} {held : List Definition}
    (h : (held.map Definition.key ++ events.map Event.key).Nodup) :
    events.foldl upsert held = held ++ events.map Event.definition := by
  induction events generalizing held with
  | nil => simp
  | cons event events ih =>
      have hheld : (held.map Definition.key).Nodup := (List.nodup_append.mp h).1
      have hfresh : event.key ∉ held.map Definition.key := by
        intro hmem
        exact (List.nodup_append.mp h).2.2 event.key hmem event.key (by simp) rfl
      have hadded : upsert held event = held ++ [event.definition] := by
        rw [upsert_eq_settle event hheld, settle, if_neg hfresh]
      have hkeys : ((held ++ [event.definition]).map Definition.key ++
          events.map Event.key).Nodup := by
        simpa [key] using h
      rw [List.foldl_cons, hadded, ih hkeys, List.map_cons, List.append_assoc,
        List.singleton_append]

namespace Tree

theorem map_definition_events (roots : List String) (tree : Tree) :
    (tree.events roots).map Event.definition =
      (takeRoots roots tree.definitions).1 ++ (takeRoots roots tree.definitions).2 := by
  simp [events, Function.comp_def]

theorem mergeAll_singleton (roots : List String) {tree : Tree} (h : tree.Unique) :
    mergeAll [tree] roots = ofDocument ⟨rootsFirst roots tree.definitions⟩ := by
  have hperm := takeRoots_perm roots tree.definitions
  have hkeys : ((tree.events roots).map Event.key).Nodup := by
    have hmap : (tree.events roots).map Event.key =
        ((tree.events roots).map Event.definition).map Definition.key := by
      rw [List.map_map]
      rfl
    rw [hmap, map_definition_events]
    exact (hperm.map Definition.key).nodup_iff.mpr h
  rw [mergeAll_eq_foldl, List.flatMap_singleton,
    Event.foldl_upsert_of_nodup (by simpa using hkeys), map_definition_events,
    rootsFirst_eq roots h]
  rfl

/-- A merged tree that is merged again has the same definitions, those of root types
first, and after that nothing changes any more. -/
theorem mergeAll_mergeAll (trees : List Tree) (roots : List String) :
    (mergeAll [mergeAll trees roots] roots).definitions =
        rootsFirst roots (mergeAll trees roots).definitions ∧
      (mergeAll [mergeAll trees roots] roots).definitions.Perm
        (mergeAll trees roots).definitions ∧
      mergeAll [mergeAll [mergeAll trees roots] roots] roots =
        mergeAll [mergeAll trees roots] roots := by
  have hunique := mergeAll_unique trees roots
  have hagain := mergeAll_singleton roots hunique
  have hdefinitions : (mergeAll [mergeAll trees roots] roots).definitions =
      rootsFirst roots (mergeAll trees roots).definitions := by
    rw [hagain]
    rfl
  refine ⟨hdefinitions, ?_, ?_⟩
  · rw [hdefinitions]
    exact rootsFirst_perm roots hunique
  · rw [mergeAll_singleton roots (mergeAll_unique _ roots), hdefinitions,
      rootsFirst_rootsFirst roots hunique, hagain]

end Tree

end SchemaLoom
