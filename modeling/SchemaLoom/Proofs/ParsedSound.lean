import SchemaLoom.Proofs.ReaderYields

namespace SchemaLoom

/-! Everything read from a text is sound: one statement for each reader of the
grammar. -/

namespace Value

theorem ofName_sound {name : String} (hname : isValidName name = true)
    (sort : ValueSort) (room : Nat) : (ofName name).Sound sort room := by
  by_cases htrue : name = "true"
  · simp [ofName, htrue, Value.Sound]
  · by_cases hfalse : name = "false"
    · simp [ofName, hfalse, Value.Sound]
    · by_cases hnull : name = "null"
      · simp [ofName, hnull, Value.Sound]
      · have hofName : ofName name = .enum name := by
          simp [ofName, htrue, hfalse, hnull]
        rw [hofName, Value.Sound]
        exact ⟨hname, hofName⟩

theorem ofIntText?_sound {text : List Char} {value : Value}
    (h : ofIntText? text = some value) (sort : ValueSort) (room : Nat) :
    value.Sound sort room := by
  simp only [ofIntText?, Option.ite_none_right_eq_some, Option.some.injEq] at h
  obtain ⟨hrange, rfl⟩ := h
  simpa only [Value.Sound] using hrange

theorem mem_insertMember {key : String} {value : Value}
    {members : List (String × Value)} {member : String × Value}
    (h : member ∈ insertMember key value members) :
    member = (key, value) ∨ member ∈ members := by
  induction members with
  | nil => simpa [insertMember] using h
  | cons first rest ih =>
      obtain ⟨other, held⟩ := first
      simp only [insertMember] at h
      split at h
      · simpa using h
      · split at h
        · rcases List.mem_cons.mp h with rfl | hrest
          · exact .inl rfl
          · exact .inr (List.mem_cons_of_mem _ hrest)
        · rcases List.mem_cons.mp h with rfl | hrest
          · exact .inr List.mem_cons_self
          · rcases ih hrest with heq | hrest
            · exact .inl heq
            · exact .inr (List.mem_cons_of_mem _ hrest)

theorem insertMember_sorted (key : String) (value : Value)
    {members : List (String × Value)}
    (hsorted : (members.map Prod.fst).Pairwise (· < ·)) :
    ((insertMember key value members).map Prod.fst).Pairwise (· < ·) := by
  induction members with
  | nil => simp [insertMember]
  | cons first rest ih =>
      obtain ⟨other, held⟩ := first
      rw [List.map_cons, List.pairwise_cons] at hsorted
      obtain ⟨hfirst, hrest⟩ := hsorted
      simp only [insertMember]
      split
      · rename_i hkey
        simp only [List.map_cons, List.pairwise_cons]
        refine ⟨?_, hfirst, hrest⟩
        intro later hlater
        rcases List.mem_cons.mp hlater with rfl | hlater
        · exact hkey
        · exact lt_trans hkey (hfirst later hlater)
      · split
        · rename_i hother
          subst hother
          exact List.pairwise_cons.mpr ⟨hfirst, hrest⟩
        · rename_i hlt hne
          refine List.pairwise_cons.mpr ⟨?_, ih hrest⟩
          intro later hlater
          obtain ⟨member, hmember, rfl⟩ := List.mem_map.mp hlater
          rcases mem_insertMember hmember with rfl | hmember
          · exact lt_of_le_of_ne (not_lt.mp hlt) fun h => hne h.symm
          · exact hfirst member.1 (List.mem_map_of_mem hmember)

/-- Members are put in order, and none is made up. -/
theorem ofMembers_sound {sort : ValueSort} {room : Nat} {members : List (String × Value)}
    (h : ∀ member ∈ members,
      isValidName member.1 = true ∧ member.2.Sound sort room) :
    (ofMembers members).Sound sort (room + 1) := by
  suffices hfold : ∀ held : List (String × Value),
      (held.map Prod.fst).Pairwise (· < ·) →
      (∀ member ∈ held, isValidName member.1 = true ∧ member.2.Sound sort room) →
      (Value.object (members.foldl
        (fun held member => insertMember member.1 member.2 held) held)).Sound sort
          (room + 1) from
    hfold [] List.Pairwise.nil (by simp)
  induction members with
  | nil =>
      intro held hsorted hheld
      exact ⟨hsorted, room, rfl, membersSound_iff.mpr hheld⟩
  | cons first rest ih =>
      intro held hsorted hheld
      obtain ⟨hfirst, hrest⟩ := List.forall_mem_cons.mp h
      refine ih hrest _ (insertMember_sorted first.1 first.2 hsorted) ?_
      intro member hmember
      rcases mem_insertMember hmember with rfl | hmember
      · exact hfirst
      · exact hheld member hmember

end Value

namespace Reader

variable {room : Nat}

theorem keeps_text : text.Keeps room fun _ => True := by
  intro complete tokens result rest hsound hrun
  unfold text at hrun
  rw [run_bind_ok (run_get _)] at hrun
  split at hrun
  · obtain ⟨_, behind, hroom, hrest⟩ := hsound
    cases hroom
    split at hrun
    · cases hrun
      exact ⟨room, ⟨rfl, trivial⟩, hrest⟩
    · cases hrun
  · obtain ⟨_, behind, hroom, hrest⟩ := hsound
    cases hroom
    split at hrun
    · cases hrun
      exact ⟨room, ⟨rfl, trivial⟩, hrest⟩
    · cases hrun
  · cases hrun

theorem keeps_description : description.Keeps room fun _ => True := by
  refine Keeps.bind (keeps_nextIs isText) ?_
  intro found _
  cases found with
  | false => exact keeps_pure trivial
  | true => exact Keeps.bind keeps_text fun _ _ => keeps_pure trivial

/-! Types. -/

private theorem nonNullFrom_sound {complete : Bool} {type result : TypeRef}
    {tokens rest : Tokens} (htype : type.Sound room) (hnonNull : type.isNonNull = false)
    (hsound : tokens.Sound complete room)
    (hrun : typeRefFrom.nonNullFrom type tokens = .ok (result, rest)) :
    result.Sound room ∧ rest.Sound complete room := by
  unfold typeRefFrom.nonNullFrom at hrun
  split at hrun
  · obtain ⟨_, behind, hroom, hrest⟩ := hsound
    cases hroom
    cases hrun
    exact ⟨⟨hnonNull, htype⟩, hrest⟩
  · cases hrun
    exact ⟨htype, hsound⟩

theorem keeps_typeRef : typeRef.Keeps room fun type => type.Sound room := by
  intro complete tokens result rest hsound hrun
  suffices h : result.Sound room ∧ rest.Sound complete room from
    ⟨room, ⟨rfl, h.1⟩, h.2⟩
  change typeRefFrom tokens = .ok (result, rest) at hrun
  fun_induction typeRefFrom tokens generalizing room result rest with
  | case1 pos text tail =>
      obtain ⟨hname, behind, hroom, htail⟩ := hsound
      cases hroom
      have htype : (TypeRef.named (String.ofList text)).Sound room := by
        rw [TypeRef.Sound, isValidName, String.toList_ofList]
        exact hname
      exact nonNullFrom_sound htype rfl htail hrun
  | case2 pos tail ih =>
      obtain ⟨_, behind, hroom, htail⟩ := hsound
      obtain rfl : room = behind + 1 := Token.room_of_opens rfl hroom
      cases hitem : typeRefFrom tail with
      | error error => simp [hitem, bind, Except.bind] at hrun
      | ok found =>
          obtain ⟨item, middle⟩ := found
          obtain ⟨hitemSound, hmiddle⟩ := ih item middle htail hitem
          simp only [hitem, bind, Except.bind] at hrun
          split at hrun
          · obtain ⟨_, outer, hroom, hbehind⟩ := hmiddle
            obtain rfl : outer = behind + 1 := Token.room_of_closes rfl hroom
            have htype : (TypeRef.list item).Sound (behind + 1) :=
              ⟨behind, rfl, hitemSound⟩
            exact nonNullFrom_sound htype rfl hbehind hrun
          · cases hrun
  | case3 => cases hrun

/-! Values.  The induction is on the bound, which every nesting lowers. -/

theorem keeps_valueWithin (sort : ValueSort) (bound : Tokens) :
    (valueWithin sort bound).Keeps room fun value => value.Sound sort room := by
  induction bound generalizing room with
  | done pos => exact yields_fail
  | broken pos => exact yields_fail
  | next pos token bound ih =>
      unfold valueWithin
      refine Keeps.bind keeps_peek ?_
      intro ahead _
      split
      · split
        · rename_i hsort
          refine Keeps.bind (keeps_mark rfl rfl) ?_
          intro _ _
          refine Keeps.bind keeps_name ?_
          intro name hname
          exact keeps_pure ⟨by simpa using hsort, hname⟩
        · exact yields_fail
      · refine Keeps.bracketed rfl rfl ?_
        rintro inner rfl
        refine (keeps_many ih).imp ?_
        intro items hitems
        exact ⟨inner, rfl, Value.itemsSound_iff.mpr hitems⟩
      · refine Keeps.bracketed rfl rfl ?_
        rintro inner rfl
        have hmember : (do
            let key ← name
            mark .colon
            let value ← valueWithin sort bound
            return (key, value) : Reader (String × Value)).Keeps inner fun member =>
              isValidName member.1 = true ∧ member.2.Sound sort inner := by
          refine Keeps.bind keeps_name ?_
          intro key hkey
          refine Keeps.bind (keeps_mark rfl rfl) ?_
          intro _ _
          refine Keeps.bind ih ?_
          intro value hvalue
          exact keeps_pure ⟨hkey, hvalue⟩
        refine (keeps_many hmember).imp ?_
        intro members hmembers
        exact Value.ofMembers_sound hmembers
      · refine Keeps.bind keeps_text ?_
        intro _ _
        exact keeps_pure (by simp [Value.Sound])
      · refine Keeps.bind keeps_text ?_
        intro _ _
        exact keeps_pure (by simp [Value.Sound])
      · refine yields_take ?_
        intro token value behind hvalue hvalid hroom
        cases token with
        | name text =>
            cases hroom
            cases hvalue
            refine ⟨rfl, Value.ofName_sound ?_ sort room⟩
            rw [isValidName, String.toList_ofList]
            exact hvalid
        | int text =>
            cases hroom
            exact ⟨rfl, Value.ofIntText?_sound hvalue sort room⟩
        | float text =>
            cases hroom
            obtain ⟨number, _, rfl⟩ := Option.map_eq_some_iff.mp hvalue
            exact ⟨rfl, by simp [Value.Sound]⟩
        | mark sign => cases hvalue
        | quoted inside => cases hvalue
        | block inside => cases hvalue

theorem keeps_value (sort : ValueSort) :
    (value sort).Keeps room fun value => value.Sound sort room :=
  Keeps.bind keeps_get fun bound _ => keeps_valueWithin sort bound

/-! Members. -/

theorem keeps_argument :
    argument.Keeps room fun argument =>
      isValidName argument.1 = true ∧ argument.2.Sound .open room := by
  refine Keeps.bind keeps_name ?_
  intro key hkey
  refine Keeps.bind (keeps_mark rfl rfl) ?_
  intro _ _
  refine Keeps.bind (keeps_value .open) ?_
  intro value hvalue
  exact keeps_pure ⟨hkey, hvalue⟩

theorem keeps_directiveArguments :
    directiveArguments.Keeps room fun arguments =>
      ∀ argument ∈ arguments, Below (fun inner => isValidName argument.1 = true ∧
        argument.2.Sound .open inner) room := by
  refine Keeps.optional rfl rfl ?_ (by simp)
  intro inner hinner
  refine (keeps_many1 keeps_argument).imp ?_
  intro arguments harguments argument hargument
  exact ⟨inner, hinner, harguments.2 argument hargument⟩

theorem keeps_directive : directive.Keeps room fun directive => directive.Sound room := by
  refine Keeps.bind keeps_position ?_
  intro pos _
  refine Keeps.bind (keeps_mark rfl rfl) ?_
  intro _ _
  refine Keeps.bind keeps_name ?_
  intro name hname
  refine Keeps.bind keeps_directiveArguments ?_
  intro arguments harguments
  exact keeps_pure ⟨hname, harguments⟩

theorem keeps_directives :
    directives.Keeps room fun directives =>
      ∀ directive ∈ directives, directive.Sound room :=
  keeps_many keeps_directive

theorem keeps_defaultValue? :
    defaultValue?.Keeps room fun found =>
      ∀ value, found = some value → value.Sound .constant room := by
  refine Keeps.bind (keeps_skipMark rfl rfl) ?_
  intro found _
  cases found with
  | false => exact keeps_pure (by simp)
  | true =>
      refine Keeps.bind (keeps_value .constant) ?_
      intro value hvalue
      exact keeps_pure (by simpa using hvalue)

theorem keeps_inputValue : inputValue.Keeps room fun input => input.Sound room := by
  refine Keeps.bind keeps_position ?_
  intro pos _
  refine Keeps.bind keeps_description ?_
  intro description _
  refine Keeps.bind keeps_name ?_
  intro name hname
  refine Keeps.bind (keeps_mark rfl rfl) ?_
  intro _ _
  refine Keeps.bind keeps_typeRef ?_
  intro type htype
  refine Keeps.bind keeps_defaultValue? ?_
  intro defaultValue hdefaultValue
  refine Keeps.bind keeps_directives ?_
  intro directives hdirectives
  exact keeps_pure ⟨hname, htype, hdefaultValue, hdirectives⟩

theorem keeps_arguments :
    arguments.Keeps room fun arguments =>
      ∀ argument ∈ arguments, Below (fun inner => argument.Sound inner) room := by
  refine Keeps.optional rfl rfl ?_ (by simp)
  intro inner hinner
  refine (keeps_many1 keeps_inputValue).imp ?_
  intro arguments harguments argument hargument
  exact ⟨inner, hinner, harguments.2 argument hargument⟩

/-- A body, if there is one, has members. -/
theorem keeps_members? {α : Type} {member : Reader α} {post : Nat → α → Prop}
    (hmember : ∀ inner, member.Keeps inner (post inner)) :
    (members? member).Keeps room fun members =>
      members.isSome = !(members.getD []).isEmpty ∧
        ∀ member ∈ members.getD [], Below (fun inner => post inner member) room := by
  refine Keeps.optional rfl rfl ?_ (by simp)
  intro inner hinner
  refine (keeps_many1 (hmember inner)).imp ?_
  rintro members ⟨hne, hmembers⟩
  refine ⟨by simpa using hne, ?_⟩
  intro member hmember
  exact ⟨inner, hinner, hmembers member hmember⟩

theorem keeps_fieldDef : fieldDef.Keeps room fun field => field.Sound room := by
  refine Keeps.bind keeps_position ?_
  intro pos _
  refine Keeps.bind keeps_description ?_
  intro description _
  refine Keeps.bind keeps_name ?_
  intro name hname
  refine Keeps.bind keeps_arguments ?_
  intro arguments harguments
  refine Keeps.bind (keeps_mark rfl rfl) ?_
  intro _ _
  refine Keeps.bind keeps_typeRef ?_
  intro type htype
  refine Keeps.bind keeps_directives ?_
  intro directives hdirectives
  exact keeps_pure ⟨hname, harguments, htype, hdirectives⟩

theorem keeps_enumValue : enumValue.Keeps room fun value => value.Sound room := by
  refine Keeps.bind keeps_position ?_
  intro pos _
  refine Keeps.bind keeps_description ?_
  intro description _
  refine Keeps.bind keeps_name ?_
  intro name hname
  refine Keeps.bind keeps_directives ?_
  intro directives hdirectives
  exact keeps_pure ⟨hname, hdirectives⟩

theorem keeps_interfaces :
    interfaces.Keeps room fun names => ∀ name ∈ names, isValidName name = true := by
  refine Keeps.bind (keeps_skipWord "implements") ?_
  intro found _
  cases found with
  | false => exact keeps_pure (by simp)
  | true => exact (keeps_separated rfl rfl keeps_name).imp fun _ hnames => hnames.2

theorem keeps_unionMembers? :
    unionMembers?.Keeps room fun members =>
      members.isSome = !(members.getD []).isEmpty ∧
        ∀ name ∈ members.getD [], isValidName name = true := by
  refine Keeps.bind (keeps_skipMark rfl rfl) ?_
  intro found _
  cases found with
  | false => exact keeps_pure (by simp)
  | true =>
      refine Keeps.bind (keeps_separated rfl rfl keeps_name) ?_
      rintro names ⟨hne, hnames⟩
      exact keeps_pure ⟨by simpa using hne, hnames⟩

/-! Types. -/

structure TypeRest.Sound (room : Nat) (rest : TypeRest) : Prop where
  name : isValidName rest.name = true
  directives : ∀ directive ∈ rest.directives, directive.Sound room
  body : rest.body.Sound room
  adds : rest.adds = (!rest.directives.isEmpty || rest.body.adds)

theorem keeps_scalarRest : scalarRest.Keeps room fun rest => rest.Sound room := by
  refine Keeps.bind keeps_name ?_
  intro name hname
  refine Keeps.bind keeps_directives ?_
  intro directives hdirectives
  exact keeps_pure ⟨hname, hdirectives, trivial, by simp [TypeBody.adds]⟩

theorem keeps_compositeRest (sort : Composite) :
    (compositeRest sort).Keeps room fun rest => rest.Sound room := by
  refine Keeps.bind keeps_name ?_
  intro name hname
  refine Keeps.bind keeps_interfaces ?_
  intro interfaces hinterfaces
  refine Keeps.bind keeps_directives ?_
  intro directives hdirectives
  refine Keeps.bind (keeps_members? fun inner => keeps_fieldDef) ?_
  rintro fields ⟨hsome, hfields⟩
  refine keeps_pure ⟨hname, hdirectives, ⟨hinterfaces, hfields⟩, ?_⟩
  cases sort with
  | object =>
      simp only [TypeBody.adds, hsome, beq_self_eq_true, Bool.true_and]
      rw [Bool.or_comm (!interfaces.isEmpty), Bool.or_assoc]
  | interface =>
      have hother : (Composite.interface == Composite.object) = false := rfl
      simp [TypeBody.adds, hsome, hother]

theorem keeps_unionRest : unionRest.Keeps room fun rest => rest.Sound room := by
  refine Keeps.bind keeps_name ?_
  intro name hname
  refine Keeps.bind keeps_directives ?_
  intro directives hdirectives
  refine Keeps.bind keeps_unionMembers? ?_
  rintro members ⟨hsome, hmembers⟩
  exact keeps_pure ⟨hname, hdirectives, hmembers, by simp [TypeBody.adds, hsome]⟩

theorem keeps_enumRest : enumRest.Keeps room fun rest => rest.Sound room := by
  refine Keeps.bind keeps_name ?_
  intro name hname
  refine Keeps.bind keeps_directives ?_
  intro directives hdirectives
  refine Keeps.bind (keeps_members? fun inner => keeps_enumValue) ?_
  rintro values ⟨hsome, hvalues⟩
  exact keeps_pure ⟨hname, hdirectives, hvalues, by simp [TypeBody.adds, hsome]⟩

theorem keeps_inputRest : inputRest.Keeps room fun rest => rest.Sound room := by
  refine Keeps.bind keeps_name ?_
  intro name hname
  refine Keeps.bind keeps_directives ?_
  intro directives hdirectives
  refine Keeps.bind (keeps_members? fun inner => keeps_inputValue) ?_
  rintro fields ⟨hsome, hfields⟩
  exact keeps_pure ⟨hname, hdirectives, hfields, by simp [TypeBody.adds, hsome]⟩

theorem keeps_typeRest? {keyword : String} {rest : Reader TypeRest}
    (h : typeRest? keyword = some rest) : rest.Keeps room fun rest => rest.Sound room := by
  unfold typeRest? at h
  split at h
  · cases h
    exact keeps_scalarRest
  · split at h
    · cases h
      exact keeps_compositeRest .object
    · split at h
      · cases h
        exact keeps_compositeRest .interface
      · split at h
        · cases h
          exact keeps_unionRest
        · split at h
          · cases h
            exact keeps_enumRest
          · split at h
            · cases h
              exact keeps_inputRest
            · cases h

theorem keeps_nextTypeRest? :
    nextTypeRest?.Keeps room fun found =>
      ∀ rest, found = some rest → rest.Keeps room fun rest => rest.Sound room := by
  refine Keeps.bind keeps_peek ?_
  intro ahead _
  split
  · exact keeps_pure fun rest hrest => keeps_typeRest? hrest
  · exact keeps_pure (by simp)

/-! Definitions. -/

theorem keeps_typeDefinition (description : Option String) :
    (typeDefinition description).Keeps room fun definition => definition.Sound room := by
  refine Keeps.bind keeps_position ?_
  intro pos _
  refine Keeps.bind keeps_nextTypeRest? ?_
  intro found hfound
  cases found with
  | none => exact yields_fail
  | some rest =>
      refine Keeps.bind keeps_name ?_
      intro _ _
      refine Keeps.bind (hfound rest rfl) ?_
      intro rest hrest
      exact keeps_pure ⟨hrest.name, hrest.directives, hrest.body, fun h => by cases h⟩

theorem keeps_typeExtension :
    typeExtension.Keeps room fun definition => definition.Sound room := by
  refine Keeps.bind (keeps_word "extend") ?_
  intro _ _
  refine Keeps.bind keeps_position ?_
  intro pos _
  refine Keeps.bind keeps_nextTypeRest? ?_
  intro found hfound
  cases found with
  | none => exact yields_fail
  | some rest =>
      refine Keeps.bind keeps_name ?_
      intro _ _
      refine Keeps.bind (hfound rest rfl) ?_
      intro rest hrest
      obtain ⟨name, directives, body, adds⟩ := rest
      cases adds with
      | false => exact yields_failAt pos
      | true =>
          exact keeps_pure ⟨hrest.name, hrest.directives, hrest.body,
            fun _ => hrest.adds.symm⟩

theorem keeps_location : location.Keeps room fun _ => True := by
  refine keeps_take_name (fun token htoken => ?_) (fun _ _ _ _ => trivial)
  cases token with
  | name text => exact absurd rfl (htoken text)
  | _ => rfl

theorem keeps_locations : locations.Keeps room fun _ => True := by
  refine Keeps.bind (keeps_nextIs _) ?_
  intro found _
  cases found with
  | false => exact keeps_pure trivial
  | true => exact (keeps_separated rfl rfl keeps_location).imp fun _ _ => trivial

theorem keeps_directiveDefinition (description : Option String) :
    (directiveDefinition description).Keeps room fun definition =>
      definition.Sound room := by
  refine Keeps.bind keeps_position ?_
  intro pos _
  refine Keeps.bind (keeps_word "directive") ?_
  intro _ _
  refine Keeps.bind (keeps_mark rfl rfl) ?_
  intro _ _
  refine Keeps.bind keeps_name ?_
  intro name hname
  refine Keeps.bind keeps_arguments ?_
  intro arguments harguments
  refine Keeps.bind (keeps_skipWord "repeatable") ?_
  intro repeatable _
  refine Keeps.bind (keeps_word "on") ?_
  intro _ _
  refine Keeps.bind keeps_locations ?_
  intro locations _
  exact keeps_pure ⟨hname, harguments⟩

theorem keeps_operation :
    operation.Keeps room fun operation => isValidName operation.2 = true := by
  refine Keeps.bind keeps_name ?_
  intro key _
  refine Keeps.bind (keeps_mark rfl rfl) ?_
  intro _ _
  refine Keeps.bind keeps_name ?_
  intro type htype
  exact keeps_pure htype

theorem setOperation?_cases {decl result : SchemaDef} {operation : String × String}
    (h : decl.setOperation? operation = some result) :
    result = { decl with query := some operation.2 } ∨
      result = { decl with mutation := some operation.2 } ∨
        result = { decl with subscription := some operation.2 } := by
  unfold SchemaDef.setOperation? at h
  split at h
  · cases h
    exact .inl rfl
  · split at h
    · cases h
      exact .inr (.inl rfl)
    · split at h
      · cases h
        exact .inr (.inr rfl)
      · cases h

theorem setOperation?_sound {decl result : SchemaDef} {operation : String × String}
    (hdecl : decl.Sound room) (hoperation : isValidName operation.2 = true)
    (h : decl.setOperation? operation = some result) : result.Sound room := by
  obtain ⟨hdirectives, hoperations⟩ := hdecl
  simp only [SchemaDef.operationTypes, List.mem_filterMap] at hoperations
  -- Whichever operation is set, the others are as they were.
  have hcases : ∀ name, name = operation.2 ∨
      (∃ found ∈ [decl.query, decl.mutation, decl.subscription], id found = some name) →
      isValidName name = true := by
    intro name hname
    obtain rfl | hname := hname
    · exact hoperation
    · exact hoperations name hname
  obtain rfl | rfl | rfl := setOperation?_cases h
  all_goals
    refine ⟨hdirectives, fun name hname => hcases name ?_⟩
    simp [SchemaDef.operationTypes] at hname ⊢
    tauto

theorem foldlM_setOperation?_sound {decl result : SchemaDef}
    {operations : List (String × String)} (hdecl : decl.Sound room)
    (hoperations : ∀ operation ∈ operations, isValidName operation.2 = true)
    (h : operations.foldlM SchemaDef.setOperation? decl = some result) :
    result.Sound room := by
  induction operations generalizing decl with
  | nil =>
      cases h
      exact hdecl
  | cons first rest ih =>
      obtain ⟨hfirst, hrest⟩ := List.forall_mem_cons.mp hoperations
      rw [List.foldlM_cons] at h
      obtain ⟨middle, hmiddle, hresult⟩ := Option.bind_eq_some_iff.mp h
      exact ih (setOperation?_sound hdecl hfirst hmiddle) hrest hresult

theorem keeps_schemaDefinition :
    schemaDefinition.Keeps room fun definition => definition.Sound room := by
  refine Keeps.bind keeps_position ?_
  intro pos _
  refine Keeps.bind (keeps_word "schema") ?_
  intro _ _
  refine Keeps.bind keeps_directives ?_
  intro directives hdirectives
  refine Yields.bind (yields_mark_opens rfl) ?_
  rintro _ inner rfl
  refine Keeps.bind (keeps_many keeps_operation) ?_
  intro operations hoperations
  refine Yields.bind (yields_mark_closes rfl) ?_
  rintro _ behind rfl
  cases hfold : operations.foldlM SchemaDef.setOperation?
      { pos, directives, query := none, mutation := none, subscription := none } with
  | none =>
      simp only [hfold]
      exact yields_failAt pos
  | some decl =>
      simp only [hfold]
      refine yields_pure ⟨rfl, ?_⟩
      exact foldlM_setOperation?_sound
        ⟨hdirectives, by simp [SchemaDef.operationTypes]⟩ hoperations hfold

theorem keeps_definition :
    definition.Keeps room fun definition => definition.Sound room := by
  refine Keeps.bind (keeps_nextIs _) ?_
  intro isSchema _
  cases isSchema with
  | true => exact keeps_schemaDefinition
  | false =>
      refine Keeps.bind (keeps_nextIs _) ?_
      intro isExtension _
      cases isExtension with
      | true => exact keeps_typeExtension
      | false =>
          refine Keeps.bind keeps_description ?_
          intro description _
          refine Keeps.bind (keeps_nextIs _) ?_
          intro isDirective _
          cases isDirective with
          | true => exact keeps_directiveDefinition description
          | false => exact keeps_typeDefinition description

/-- A document is read from complete tokens only, and it is sound. -/
theorem document_sound {complete : Bool} {tokens rest : Tokens} {result : Document}
    (hsound : tokens.Sound complete bracketLimit)
    (h : document.run tokens = .ok (result, rest)) :
    complete = true ∧ result.Sound := by
  obtain ⟨definitions, middle, hdefinitions, hend⟩ := run_bind_eq_ok h
  obtain ⟨behind, ⟨rfl, hne, hall⟩, hmiddle⟩ :=
    keeps_many1 keeps_definition complete tokens definitions middle hsound hdefinitions
  rw [run_bind_ok (run_get _)] at hend
  cases middle with
  | done pos =>
      cases hend
      exact ⟨hmiddle, hne, hall⟩
  | broken pos => cases hend
  | next pos token tail => cases hend

end Reader

/-- Whatever is read from a text is a sound document. -/
theorem Document.ofText_sound {text : List Char} {document : Document}
    (h : Document.ofText text = .ok document) : document.Sound := by
  unfold Document.ofText at h
  split at h
  · cases h
  · obtain ⟨complete, hsound⟩ := exists_sound_scan text
    cases hrun : Reader.document.run (scan text) with
    | error error =>
        rw [hrun] at h
        cases h
    | ok found =>
        rw [hrun] at h
        cases h
        exact (Reader.document_sound hsound hrun).2

theorem Document.parse_sound {text : String} {document : Document}
    (h : Document.parse text = .ok document) : document.Sound :=
  Document.ofText_sound h

end SchemaLoom
