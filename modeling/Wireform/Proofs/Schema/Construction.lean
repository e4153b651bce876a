import Wireform.Proofs.Schema.Checks

/-!
# Expressions that build a schema

An expression builds a schema exactly if every expression inside it fits, whatever the depth. Otherwise the
fault is that of the first one that does not fit, where inner expressions come from left to right and before
outer ones.
-/
namespace Wireform

/-! ### Outcomes of building

What is reported on the way never changes the outcome.
-/

section

variable {α β : Type}

/-- The outcome of a step, whatever was reported before. -/
def EndsIn (x : Build α) (r : Except BuildFault α) : Prop :=
  ∀ p, (x.run.run p).1 = r

theorem endsIn_pure (a : α) : EndsIn (pure a) (.ok a) :=
  fun _ => rfl

theorem endsIn_throw (fault : BuildFault) : EndsIn (throw fault : Build α) (.error fault) :=
  fun _ => rfl

theorem endsIn_ofExcept (r : Except BuildFault α) : EndsIn (Build.ofExcept r) r :=
  fun _ => rfl

theorem EndsIn.bind {x : Build α} {f : α → Build β} {r : Except BuildFault α} {g : α → Except BuildFault β}
    (hx : EndsIn x r) (hf : ∀ a, r = .ok a → EndsIn (f a) (g a)) : EndsIn (x >>= f) (r >>= g) := by
  intro p
  have hr := hx p
  rw [run_bind]
  cases h : x.run.run p with
  | mk result q =>
      rw [h] at hr
      subst hr
      cases result with
      | ok a => exact hf a rfl q
      | error fault => rfl

theorem EndsIn.bind_ok {x : Build α} {f : α → Build β} {a : α} {r : Except BuildFault β}
    (hx : EndsIn x (.ok a)) (hf : EndsIn (f a) r) : EndsIn (x >>= f) r :=
  hx.bind fun _ h => Except.ok.inj h ▸ hf

theorem EndsIn.bind_error {x : Build α} {fault : BuildFault} (hx : EndsIn x (.error fault))
    (f : α → Build β) : EndsIn (x >>= f) (.error fault) :=
  hx.bind (g := fun _ => .error fault) nofun

end

namespace Expr

/-- The container of the schema that an expression builds, if it builds one. -/
def container : Expr → Container
  | scalar _ | optional _ | nullable _ | unknown _ => .none
  | array _ => .list
  | object _ | partialObject _ => .object
  | tuple _ => .tuple
  | oneOf _ | variant .. | variantOf .. => .sum

mutual

/-- The expressions inside an expression in the order in which they are built: inner ones from left to
right, and the expression itself last. -/
def steps : Expr → List Expr
  | scalar kind => [scalar kind]
  | optional inner => stepsOfArgument inner ++ [optional inner]
  | nullable inner => stepsOfArgument inner ++ [nullable inner]
  | array item => stepsOfArgument item ++ [array item]
  | object definitions => stepsOfArgument definitions ++ [object definitions]
  | partialObject definitions => stepsOfArgument definitions ++ [partialObject definitions]
  | tuple positions => stepsOfArguments positions ++ [tuple positions]
  | oneOf members => stepsOfArgument members ++ [oneOf members]
  | variant discriminant arguments => stepsOfArguments arguments ++ [variant discriminant arguments]
  | variantOf discriminant pairs => stepsOfArgument pairs ++ [variantOf discriminant pairs]
  | unknown name => [unknown name]

def stepsOfArgument : Argument Expr → List Expr
  | .schema e => steps e
  | .value _ => []
  | .list items | .tuple items => stepsOfArguments items
  | .map entries => stepsOfEntries entries

def stepsOfArguments : List (Argument Expr) → List Expr
  | [] => []
  | argument :: arguments => stepsOfArgument argument ++ stepsOfArguments arguments

def stepsOfEntries : List (Value × Argument Expr) → List Expr
  | [] => []
  | (_, argument) :: entries => stepsOfArgument argument ++ stepsOfEntries entries

end

/-- The arguments that an expression is given. -/
def arguments : Expr → List (Argument Expr)
  | scalar _ | unknown _ => []
  | optional a | nullable a | array a | object a | partialObject a | oneOf a | variantOf _ a => [a]
  | tuple arguments | variant _ arguments => arguments

/-- The arguments of an expression are what its combinator asks for, if the expressions among them build
schemas. -/
def Fits : Expr → Prop
  | scalar _ => True
  | optional a | nullable a | array a => a.IsSchema
  | object a | partialObject a => a.FieldsFit
  | tuple arguments => ∀ a ∈ arguments, a.IsSchema
  | oneOf a => a.MembersFit
  | variant _ arguments => Argument.AlternatingFit container arguments
  | variantOf _ a => a.PairsFit container
  | unknown _ => False

/-- The kind of fault of an expression that does not fit: the definition is wrong, or there are no items where
members or pairs are expected, or there is no combinator of that name. -/
def Raises : Expr → BuildFault → Prop
  | oneOf a, fault | variantOf _ a, fault => a.WalkFault fault
  | unknown name, fault => fault = .unknownName name
  | _, fault => fault.IsDefinition

/-- The fault is that of the first expression that does not fit. -/
def FirstMisfit (steps : List Expr) (fault : BuildFault) : Prop :=
  ∃ before d after, steps = before ++ d :: after ∧ (∀ b ∈ before, b.Fits) ∧ ¬ d.Fits ∧
    EndsIn d.build (.error fault) ∧ d.Raises fault

theorem FirstMisfit.append {steps : List Expr} {fault : BuildFault} (h : FirstMisfit steps fault)
    (more : List Expr) : FirstMisfit (steps ++ more) fault := by
  obtain ⟨before, d, after, rfl, hd⟩ := h
  exact ⟨before, d, after ++ more, by simp, hd⟩

theorem FirstMisfit.prepend {steps : List Expr} {fault : BuildFault} (h : FirstMisfit steps fault)
    {earlier : List Expr} (hfit : ∀ d ∈ earlier, d.Fits) : FirstMisfit (earlier ++ steps) fault := by
  obtain ⟨before, d, after, rfl, hbefore, hd⟩ := h
  refine ⟨earlier ++ before, d, after, by simp, ?_, hd⟩
  intro b hb
  exact (List.mem_append.mp hb).elim (hfit b) (hbefore b)

section

variable {α β : Type} {steps more : List Expr}

/-- Building these expressions, one after the other, ends well if all of them fit, and with the fault of the
first one that does not otherwise. -/
def Settles (steps : List Expr) (x : Build α) (good : α → Prop) : Prop :=
  (∃ a, EndsIn x (.ok a) ∧ good a ∧ ∀ d ∈ steps, d.Fits) ∨
    ∃ fault, EndsIn x (.error fault) ∧ FirstMisfit steps fault

theorem settles_pure {good : α → Prop} {a : α} (h : good a) : Settles [] (pure a) good :=
  .inl ⟨a, endsIn_pure a, h, List.forall_mem_nil _⟩

theorem Settles.bind {x : Build α} {f : α → Build β} {good : α → Prop} {fine : β → Prop}
    (hx : Settles steps x good) (hf : ∀ a, good a → Settles more (f a) fine) :
    Settles (steps ++ more) (x >>= f) fine := by
  rcases hx with ⟨a, hends, hgood, hfit⟩ | ⟨fault, hends, hmisfit⟩
  · rcases hf a hgood with ⟨b, hb, hfine, hmore⟩ | ⟨fault, hb, hmisfit⟩
    · refine .inl ⟨b, hends.bind_ok hb, hfine, ?_⟩
      intro d hd
      exact (List.mem_append.mp hd).elim (hfit d) (hmore d)
    · exact .inr ⟨fault, hends.bind_ok hb, hmisfit.prepend hfit⟩
  · exact .inr ⟨fault, hends.bind_error f, hmisfit.append more⟩

theorem Settles.map {x : Build α} {f : α → β} {good : α → Prop} {fine : β → Prop}
    (hx : Settles steps x good) (hf : ∀ a, good a → fine (f a)) :
    Settles steps (x >>= fun a => pure (f a)) fine := by
  have h := hx.bind fun a ha => settles_pure (hf a ha)
  rwa [List.append_nil] at h

/-- The schema has the container that can be seen from the expression. -/
def Shaped (e : Expr) (s : Schema) : Prop :=
  s.container = e.container

/-- Once the inner expressions are built, a check decides about the expression itself. -/
theorem Settles.finish {e : Expr} {x : Build α} {f : α → Build Schema} {good : α → Prop}
    (hx : Settles steps x good) (hbuild : e.build = x >>= f)
    (hf : ∀ a, good a → ∃ r, EndsIn (f a) r ∧ Decides e.Fits e.Raises r ∧ ∀ s, r = .ok s → e.Shaped s) :
    Settles (steps ++ [e]) e.build e.Shaped := by
  rcases hx with ⟨a, hends, hgood, hfit⟩ | ⟨fault, hends, hmisfit⟩
  · obtain ⟨r, hr, hdecides, hshaped⟩ := hf a hgood
    have he : EndsIn e.build r := hbuild ▸ hends.bind_ok hr
    cases r with
    | ok s =>
        refine .inl ⟨s, he, hshaped s rfl, ?_⟩
        intro d hd
        rcases List.mem_append.mp hd with hd | hd
        · exact hfit d hd
        · exact List.mem_singleton.mp hd ▸ hdecides
    | error fault => exact .inr ⟨fault, he, steps, e, [], rfl, hfit, hdecides.1, he, hdecides.2⟩
  · exact .inr ⟨fault, hbuild ▸ hends.bind_error f, hmisfit.append [e]⟩

/-- A check of what the inner expressions gave, and a schema of what it accepts. -/
theorem Settles.checked {e : Expr} {x : Build α} {check : α → Except BuildFault β} {make : β → Schema}
    {good : α → Prop} (hx : Settles steps x good)
    (hbuild : e.build = x >>= fun a => Build.ofExcept (check a) >>= fun b => pure (make b))
    (hcheck : ∀ a, good a → Decides e.Fits e.Raises (check a)) (hmake : ∀ b, e.Shaped (make b)) :
    Settles (steps ++ [e]) e.build e.Shaped := by
  refine hx.finish hbuild fun a ha => ⟨check a >>= fun b => pure (make b), ?_, (hcheck a ha).map make, ?_⟩
  · exact (endsIn_ofExcept (check a)).bind fun b _ => endsIn_pure (make b)
  · intro s hs
    obtain ⟨b, -, hb⟩ := bind_eq_ok.mp hs
    exact pure_eq_ok.mp hb ▸ hmake b

end

theorem ends_buildVariant (discriminant : String) (pairs : List Operand) :
    EndsIn (Schema.buildVariant discriminant pairs)
      (Schema.branchesOf pairs >>= fun branches => Schema.variantOf discriminant branches) := by
  refine (endsIn_ofExcept _).bind fun branches _ => ?_
  cases Schema.variantOf discriminant branches with
  | error fault => exact (endsIn_ofExcept _).bind_error _
  | ok s => exact (endsIn_ofExcept _).bind_ok fun p => rfl

theorem container_of_variantOf {discriminant : String} {pairs : List Operand} {s : Schema}
    (h : (Schema.branchesOf pairs >>= fun branches => Schema.variantOf discriminant branches) = .ok s) :
    s.container = .sum := by
  obtain ⟨branches, -, hvariant⟩ := bind_eq_ok.mp h
  rw [Schema.variantOf] at hvariant
  split at hvariant
  · cases hvariant
  · exact Except.ok.inj hvariant ▸ rfl

/-- None of the plain values that these expressions are given has an integer that is too long to be shown. -/
def Showable (steps : List Expr) : Prop :=
  ∀ d ∈ steps, ∀ a ∈ d.arguments, a.Short

theorem Showable.append {steps more : List Expr} :
    Showable (steps ++ more) ↔ Showable steps ∧ Showable more :=
  List.forall_mem_append

theorem Showable.single {e : Expr} : Showable [e] ↔ ∀ a ∈ e.arguments, a.Short :=
  List.forall_mem_singleton

/-- The argument becomes this operand: both are alike in all that combinators see of them. -/
def Gives (a : Argument Expr) (o : Operand) : Prop :=
  o.seen Schema.container = a.seen container

section

variable {a : Argument Expr} {o : Operand}

theorem Gives.short (h : Gives a o) (hshort : a.Short) : o.Short :=
  (Argument.short_seen _).mp (h ▸ (Argument.short_seen _).mpr hshort)

theorem Gives.isSchema (h : Gives a o) : o.IsSchema ↔ a.IsSchema := by
  rw [← Argument.isSchema_seen Schema.container, h, Argument.isSchema_seen]

theorem Gives.fieldsFit (h : Gives a o) : o.FieldsFit ↔ a.FieldsFit := by
  rw [← Argument.fieldsFit_seen Schema.container, h, Argument.fieldsFit_seen]

theorem Gives.membersFit (h : Gives a o) : o.MembersFit ↔ a.MembersFit := by
  rw [← Argument.membersFit_seen Schema.container, h, Argument.membersFit_seen]

theorem Gives.pairsFit (h : Gives a o) : o.PairsFit Schema.container ↔ a.PairsFit container := by
  rw [← Argument.pairsFit_seen, h, Argument.pairsFit_seen]

theorem Gives.iterate?_eq_none (h : Gives a o) : o.iterate? = none ↔ a.iterate? = none := by
  have hseen := congrArg Argument.iterate? h
  rw [Argument.iterate?_seen, Argument.iterate?_seen] at hseen
  rw [← Option.map_eq_none_iff (f := List.map (Argument.seen Schema.container)), hseen,
    Option.map_eq_none_iff]

theorem Gives.walkFault (h : Gives a o) : o.WalkFault = a.WalkFault := by
  funext fault
  rw [Argument.WalkFault, Argument.WalkFault, Ne, Ne, h.iterate?_eq_none]

end

/-- The arguments become these operands. -/
def GiveAll (arguments : List (Argument Expr)) (operands : List Operand) : Prop :=
  operands.map (Argument.seen Schema.container) = arguments.map (Argument.seen container)

section

variable {arguments : List (Argument Expr)} {operands : List Operand}

theorem GiveAll.short (h : GiveAll arguments operands) (hshort : ∀ a ∈ arguments, a.Short) :
    ∀ o ∈ operands, o.Short := by
  intro o ho
  obtain ⟨a, ha, hseen⟩ := List.mem_map.mp (h ▸ List.mem_map_of_mem ho)
  exact Gives.short hseen.symm (hshort a ha)

theorem GiveAll.isSchema (h : GiveAll arguments operands) :
    (∀ o ∈ operands, o.IsSchema) ↔ ∀ a ∈ arguments, a.IsSchema := by
  have hseen : (∀ b ∈ operands.map (Argument.seen Schema.container), b.IsSchema) ↔
      ∀ b ∈ arguments.map (Argument.seen container), b.IsSchema := by
    rw [h]
  simpa [Argument.isSchema_seen] using hseen

theorem GiveAll.alternatingFit (h : GiveAll arguments operands) :
    Argument.AlternatingFit Schema.container operands ↔ Argument.AlternatingFit container arguments := by
  rw [← Argument.alternatingFit_seen, h, Argument.alternatingFit_seen]

end

/-- A variant of operands in turn. -/
theorem ends_variant {discriminant : String} {operands : List Operand} (hshort : ∀ o ∈ operands, o.Short) :
    ∃ r, EndsIn (match Schema.pairUp? operands with
        | some pairs => Schema.buildVariant discriminant pairs
        | none => throw (.definition .notAlternating)) r ∧
      Decides (Argument.AlternatingFit Schema.container operands) BuildFault.IsDefinition r ∧
      ∀ s, r = .ok s → s.container = .sum := by
  cases hpaired : Schema.pairUp? operands with
  | none =>
      refine ⟨_, endsIn_throw _, ⟨?_, BuildFault.isDefinition_definition _⟩, nofun⟩
      rintro ⟨pairs, rfl, -⟩
      cases hpaired.symm.trans (Schema.pairUp?_eq_some.mpr ⟨pairs, rfl, rfl⟩)
  | some paired =>
      obtain ⟨pairs, rfl, rfl⟩ := Schema.pairUp?_eq_some.mp hpaired
      refine ⟨_, ends_buildVariant discriminant _, ?_, fun s => container_of_variantOf⟩
      refine (Schema.decides_variantOf discriminant ?_).congr ?_
      · refine List.forall_mem_map.mpr fun pair hpair => Argument.short_list.mpr fun o ho => hshort o ?_
        exact List.mem_flatMap.mpr ⟨pair, hpair, ho⟩
      · constructor
        · rintro ⟨hne, hpairs⟩
          exact ⟨pairs, rfl, mt List.map_eq_nil_iff.mpr hne, List.forall_mem_map.mp hpairs⟩
        · rintro ⟨others, hothers, hne, hpairs⟩
          obtain rfl := Argument.alternating_injective hothers
          exact ⟨mt List.map_eq_nil_iff.mp hne, List.forall_mem_map.mpr hpairs⟩

/-- A variant of the items of an operand. -/
theorem ends_variantOf {discriminant : String} {o : Operand} (hshort : o.Short) :
    ∃ r, EndsIn (match o.iterate? with
        | some items => Schema.buildVariant discriminant items
        | none => throw .notIterable) r ∧
      Decides (o.PairsFit Schema.container) o.WalkFault r ∧ ∀ s, r = .ok s → s.container = .sum := by
  cases hitems : o.iterate? with
  | none =>
      refine ⟨_, endsIn_throw _, ⟨?_, .inl ⟨hitems, rfl⟩⟩, nofun⟩
      rintro ⟨items, hsome, -⟩
      cases hitems.symm.trans hsome
  | some items =>
      have hkind : o.WalkFault = BuildFault.IsDefinition := by
        funext fault
        simp [Argument.WalkFault, hitems]
      refine ⟨_, ends_buildVariant discriminant items, ?_, fun s => container_of_variantOf⟩
      rw [hkind]
      refine (Schema.decides_variantOf discriminant (hshort.of_iterate? hitems)).congr ?_
      simp [Argument.PairsFit, hitems]

mutual

theorem settles_build : ∀ (e : Expr), Showable e.steps → Settles e.steps e.build e.Shaped
  | .scalar kind, _ =>
      .inl ⟨.scalar kind, fun _ => rfl, rfl, List.forall_mem_singleton.mpr trivial⟩
  | .optional inner, h =>
      (settles_buildArgument inner (Showable.append.mp h).1).checked rfl
        (fun o ho => (Schema.decides_require _ o).congr ho.isSchema) fun _ => rfl
  | .nullable inner, h =>
      (settles_buildArgument inner (Showable.append.mp h).1).checked rfl
        (fun o ho => (Schema.decides_require _ o).congr ho.isSchema) fun _ => rfl
  | .array item, h =>
      (settles_buildArgument item (Showable.append.mp h).1).checked rfl
        (fun o ho => (Schema.decides_require _ o).congr ho.isSchema) fun _ => rfl
  | .object definitions, h => by
      obtain ⟨hinner, hself⟩ := Showable.append.mp h
      have hshort := Showable.single.mp hself definitions List.mem_cons_self
      exact (settles_buildArgument definitions hinner).checked rfl
        (fun _ ho => (Schema.decides_fieldsOf _ (ho.short hshort)).congr ho.fieldsFit) fun _ => rfl
  | .partialObject definitions, h => by
      obtain ⟨hinner, hself⟩ := Showable.append.mp h
      have hshort := Showable.single.mp hself definitions List.mem_cons_self
      exact (settles_buildArgument definitions hinner).checked rfl
        (fun _ ho => (Schema.decides_fieldsOf _ (ho.short hshort)).congr ho.fieldsFit) fun _ => rfl
  | .tuple positions, h =>
      (settles_buildArguments positions (Showable.append.mp h).1).checked rfl
        (fun os hos => (Schema.decides_requirePositions 0 os).congr hos.isSchema) fun _ => rfl
  | .oneOf members, h => by
      refine (settles_buildArgument members (Showable.append.mp h).1).checked rfl ?_ fun _ => rfl
      intro o ho
      have hdecides := (Schema.decides_requireMembers o).congr ho.membersFit
      rwa [ho.walkFault] at hdecides
  | .variant discriminant arguments, h => by
      obtain ⟨hinner, hself⟩ := Showable.append.mp h
      refine (settles_buildArguments arguments hinner).finish rfl fun operands hos => ?_
      obtain ⟨r, hends, hdecides, hshaped⟩ := ends_variant (hos.short (Showable.single.mp hself))
      exact ⟨r, hends, hdecides.congr hos.alternatingFit, hshaped⟩
  | .variantOf discriminant pairs, h => by
      obtain ⟨hinner, hself⟩ := Showable.append.mp h
      refine (settles_buildArgument pairs hinner).finish rfl fun o ho => ?_
      obtain ⟨r, hends, hdecides, hshaped⟩ :=
        ends_variantOf (ho.short (Showable.single.mp hself pairs List.mem_cons_self))
      rw [ho.walkFault] at hdecides
      exact ⟨r, hends, hdecides.congr ho.pairsFit, hshaped⟩
  | .unknown name, _ =>
      .inr ⟨.unknownName name, endsIn_throw _, [], .unknown name, [], rfl, List.forall_mem_nil _, id,
        endsIn_throw _, rfl⟩

theorem settles_buildArgument : ∀ (a : Argument Expr), Showable (stepsOfArgument a) →
    Settles (stepsOfArgument a) (buildArgument a) (Gives a)
  | .schema e, h => (settles_build e h).map fun _ hs => congrArg Argument.schema hs
  | .value _, _ => settles_pure rfl
  | .list items, h =>
      (settles_buildArguments items h).map fun _ hos => by
        rw [Gives, Argument.seen, Argument.seen, Argument.seenItems_eq, Argument.seenItems_eq, hos]
  | .tuple items, h =>
      (settles_buildArguments items h).map fun _ hos => by
        rw [Gives, Argument.seen, Argument.seen, Argument.seenItems_eq, Argument.seenItems_eq, hos]
  | .map entries, h => (settles_buildEntries entries h).map fun _ hos => congrArg Argument.map hos

theorem settles_buildArguments : ∀ (arguments : List (Argument Expr)), Showable (stepsOfArguments arguments) →
    Settles (stepsOfArguments arguments) (buildArguments arguments) (GiveAll arguments)
  | [], _ => settles_pure rfl
  | argument :: arguments, h => by
      obtain ⟨hfirst, hrest⟩ := Showable.append.mp h
      refine (settles_buildArgument argument hfirst).bind fun o ho => ?_
      exact (settles_buildArguments arguments hrest).map fun _ hos => congrArg₂ List.cons ho hos

theorem settles_buildEntries : ∀ (entries : List (Value × Argument Expr)), Showable (stepsOfEntries entries) →
    Settles (stepsOfEntries entries) (buildEntries entries) fun operands =>
      Argument.seenEntries Schema.container operands = Argument.seenEntries container entries
  | [], _ => settles_pure rfl
  | (key, argument) :: entries, h => by
      obtain ⟨hfirst, hrest⟩ := Showable.append.mp h
      refine (settles_buildArgument argument hfirst).bind fun o ho => ?_
      exact (settles_buildEntries entries hrest).map fun _ hos =>
        congrArg₂ List.cons (congrArg (Prod.mk key) ho) hos

end

/-- An expression builds a schema exactly if every expression inside it fits. Any other one has the fault of
the first expression inside that does not fit, and this is the fault that this one has by itself: the definition
is wrong, unless members or pairs are asked of something that has no items. -/
theorem schema_iff_fits {e : Expr} (h : Showable e.steps) :
    ((∃ s, e.schema.1 = .ok s) ↔ ∀ d ∈ e.steps, d.Fits) ∧
      (∀ s, e.schema.1 = .ok s → s.container = e.container) ∧
      ∀ fault, e.schema.1 = .error fault →
        ∃ before d after, e.steps = before ++ d :: after ∧ (∀ b ∈ before, b.Fits) ∧ ¬ d.Fits ∧
          d.schema.1 = .error fault ∧ d.Raises fault := by
  rcases settles_build e h with ⟨s, hends, hshaped, hfit⟩ | ⟨fault, hends, hmisfit⟩
  · have hs : e.schema.1 = .ok s := hends []
    rw [hs]
    refine ⟨⟨fun _ => hfit, fun _ => ⟨s, rfl⟩⟩, ?_, nofun⟩
    intro t ht
    exact Except.ok.inj ht ▸ hshaped
  · have hfault : e.schema.1 = .error fault := hends []
    obtain ⟨before, d, after, hsteps, hbefore, hd, hfails, hraises⟩ := hmisfit
    rw [hfault]
    refine ⟨⟨nofun, fun hfit => ?_⟩, nofun, ?_⟩
    · exact absurd (hfit d (by simp [hsteps])) hd
    · intro other hother
      cases hother
      exact ⟨before, d, after, hsteps, hbefore, hd, hfails [], hraises⟩

/-- Both positions are wrong. -/
def wrongTuple : Expr :=
  tuple [.schema (oneOf (.value (.int 5))), .schema (optional (.list [.schema (scalar .integer)]))]

theorem not_holdsLong_five : ¬ (Value.int 5).HoldsLong := fun hlong =>
  absurd ((Value.written?_eq_none _).mpr hlong) (by decide +kernel)

/-- It is the first position that tells. -/
theorem schema_iff_fits_tuple :
    Showable wrongTuple.steps ∧ wrongTuple.schema.1 = .error .notIterable ∧
      ∃ before d after, wrongTuple.steps = before ++ d :: after ∧ (∀ b ∈ before, b.Fits) ∧ ¬ d.Fits ∧
        d.schema.1 = .error .notIterable ∧ d.Raises .notIterable := by
  have hshort : Showable wrongTuple.steps := by
    simp [wrongTuple, Showable, steps, stepsOfArguments, stepsOfArgument, arguments, Argument.Short,
      Argument.values, Argument.valuesOfItems, not_holdsLong_five]
  have hfault : wrongTuple.schema.1 = .error .notIterable := rfl
  exact ⟨hshort, hfault, (schema_iff_fits hshort).2.2 .notIterable hfault⟩

/-- The pairs of a variant have to be something with items. A number as the pairs is no wrong definition, though no
enumeration is built. -/
theorem variantOf_number :
    Showable (variantOf "type" (.value (.int 5))).steps ∧
      (variantOf "type" (.value (.int 5))).steps = [variantOf "type" (.value (.int 5))] ∧
      (variantOf "type" (.value (.int 5))).schema.1 = .error .notIterable ∧
      ¬ BuildFault.notIterable.IsDefinition := by
  refine ⟨?_, rfl, rfl, ?_⟩
  · simp [Showable, steps, stepsOfArgument, arguments, Argument.Short, Argument.values, not_holdsLong_five]
  · rintro ⟨reason, hreason⟩
    cases hreason

end Expr
end Wireform
