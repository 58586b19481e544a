import Mathlib
import OwnLang.Proofs.Check.Declare
import OwnLang.Proofs.Check.Invariant
import OwnLang.Proofs.Check.Registered

/-!
# What was declared stays declared

The roll of a context lists the declarations that its entities were made from, in order (`Context.roll`). Files enter
their declarations, each of them once (`Check.roll_files`), and behind these only the instances of templates are
entered. Whatever is resolved or checked, nothing is taken off the roll again, and a struct has a function for each
one that its declaration has (`Check.Enrolled`).
-/

namespace OwnLang

/-- What was declared. Structs stand there with their functions. -/
@[ext]
structure Roll where
  globals : List GlobalKind := []
  structs : List (Surface.StructDecl × List GlobalId) := []
  aliases : List (Surface.Ident × Surface.TypeExpr) := []
  macros : List Surface.MacroDecl := []

namespace Roll

/-- Behind what was declared, more was. -/
structure Begins (r r' : Roll) : Prop where
  globals : r.globals <+: r'.globals
  structs : r.structs <+: r'.structs
  aliases : r.aliases <+: r'.aliases
  macros : r.macros <+: r'.macros

/-- The functions of a struct are those of its declaration. -/
def Staffed (r : Roll) : Prop :=
  ∀ (i : ℕ) (decl : Surface.StructDecl) (members : List GlobalId), r.structs[i]? = some (decl, members) →
    List.Forall₂ (fun id method => r.globals[id.index]? = some (.function method (some ⟨i⟩)))
      members decl.methods

/-- The roll with one more declaration, of a struct together with its functions. -/
def enter (r : Roll) : Surface.ItemKind → Roll
  | .function decl => { r with globals := r.globals ++ [.function decl none] }
  | .struct decl =>
    { r with
      globals := r.globals ++ decl.methods.map fun method => .function method (some ⟨r.structs.length⟩)
      structs := r.structs ++
        [(decl, (List.range' r.globals.length decl.methods.length).map GlobalId.mk)] }
  | .global decl => { r with globals := r.globals ++ [.storage decl] }
  | .typeAlias name target => { r with aliases := r.aliases ++ [(name, target)] }
  | .macroDecl decl => { r with macros := r.macros ++ [decl] }

/-- What files declare. A template is not on the roll, but its instances are. -/
def ofFiles (files : List Surface.Module) : Roll :=
  ((files.flatMap (·.items)).filter (·.template.isEmpty)).foldl (fun r item => r.enter item.kind) {}

variable {r r' r'' : Roll}

theorem Begins.refl (r : Roll) : r.Begins r :=
  ⟨List.prefix_rfl, List.prefix_rfl, List.prefix_rfl, List.prefix_rfl⟩

theorem Begins.trans (h : r.Begins r') (h' : r'.Begins r'') : r.Begins r'' :=
  ⟨h.globals.trans h'.globals, h.structs.trans h'.structs, h.aliases.trans h'.aliases, h.macros.trans h'.macros⟩

theorem begins_enter (r : Roll) (kind : Surface.ItemKind) : r.Begins (r.enter kind) := by
  cases kind with
  | function decl => exact { Begins.refl r with globals := List.prefix_append _ _ }
  | struct decl =>
    exact { Begins.refl r with globals := List.prefix_append _ _, structs := List.prefix_append _ _ }
  | global decl => exact { Begins.refl r with globals := List.prefix_append _ _ }
  | typeAlias name target => exact { Begins.refl r with aliases := List.prefix_append _ _ }
  | macroDecl decl => exact { Begins.refl r with macros := List.prefix_append _ _ }

theorem getElem?_of_prefix {α : Type} {xs ys : List α} (h : xs <+: ys) {i : ℕ} {x : α} (hx : xs[i]? = some x) :
    ys[i]? = some x := by
  obtain ⟨rest, rfl⟩ := h
  exact (List.getElem?_append_left (List.getElem?_eq_some_iff.mp hx).1).trans hx

/-- Functions are entered in the order of a declaration. -/
theorem forall₂_methods (owner : StructId) (globals : List GlobalKind) (methods : List Surface.FnDecl) :
    List.Forall₂ (fun id method => (globals ++ methods.map fun method => .function method (some owner))[id.index]? =
        some (GlobalKind.function method (some owner)))
      ((List.range' globals.length methods.length).map GlobalId.mk) methods := by
  induction methods generalizing globals with
  | nil => exact .nil
  | cons method rest ih =>
    have hrest := ih (globals ++ [.function method (some owner)])
    rw [List.length_append, List.append_assoc] at hrest
    exact .cons (by simp) hrest

theorem Staffed.enter (h : r.Staffed) (kind : Surface.ItemKind) : (r.enter kind).Staffed := by
  have hold {i : ℕ} {decl : Surface.StructDecl} {members : List GlobalId}
      (hfound : r.structs[i]? = some (decl, members)) :
      List.Forall₂ (fun id method => (r.enter kind).globals[id.index]? = some (.function method (some ⟨i⟩)))
        members decl.methods :=
    (h i decl members hfound).imp fun _ _ => getElem?_of_prefix (r.begins_enter kind).globals
  intro i decl members hfound
  cases kind with
  | struct decl' =>
    rcases Nat.lt_trichotomy i r.structs.length with hlt | rfl | hgt
    · exact hold (by rwa [Roll.enter, List.getElem?_append_left hlt] at hfound)
    · rw [Roll.enter, List.getElem?_concat_length] at hfound
      obtain ⟨rfl, rfl⟩ := Prod.mk.inj (Option.some.inj hfound)
      exact forall₂_methods _ _ _
    · rw [Roll.enter, List.getElem?_eq_none (by simpa using hgt)] at hfound
      cases hfound
  | function | global | typeAlias | macroDecl => exact hold hfound

theorem staffed_ofFiles (files : List Surface.Module) : (ofFiles files).Staffed :=
  List.foldlRecOn _ _ (motive := Staffed) (fun _ _ _ hfound => by cases hfound) fun _ hr item _ => hr.enter item.kind

end Roll

namespace Context

/-- What was declared in a context. -/
def roll (c : Context) : Roll where
  globals := c.globals.toList.map (·.kind)
  structs := c.structs.toList.map fun d => (d.decl, d.members.map (·.2))
  aliases := c.aliases.toList.map fun a => (a.name, a.target)
  macros := c.macros.toList.map (·.decl)

variable {c d : Context}

theorem map_modify {α β : Type} {f : α → β} {change : α → α} {change' : β → β}
    (h : ∀ x, f (change x) = change' (f x)) (xs : Array α) (i : ℕ) :
    (xs.modify i change).toList.map f = (xs.toList.map f).modify i change' := by
  refine List.ext_getElem? fun k => ?_
  simp only [List.getElem?_map, List.getElem?_modify, Array.getElem?_toList, Array.getElem?_modify]
  split
  · simp [Function.comp_def, h]
  · simp

/-- A change of an entity that keeps what is on the roll. -/
theorem map_modify_same {α β : Type} {f : α → β} {change : α → α} (h : ∀ x, f (change x) = f x) (xs : Array α)
    (i : ℕ) : (xs.modify i change).toList.map f = xs.toList.map f := by
  have hid (x : α) : f (change x) = id (f x) := h x
  rw [map_modify hid, List.modify_id]

theorem roll_modifyGlobal (id : GlobalId) {change : Global → Global} (h : ∀ g, (change g).kind = g.kind) :
    (c.modifyGlobal id change).roll = c.roll := by
  unfold roll modifyGlobal
  rw [map_modify_same h]

theorem roll_modifyStruct (id : StructId) {change : StructDef → StructDef}
    (hdecl : ∀ d, (change d).decl = d.decl) (hmembers : ∀ d, (change d).members = d.members) :
    (c.modifyStruct id change).roll = c.roll := by
  unfold roll modifyStruct
  rw [map_modify_same fun d => by rw [hdecl, hmembers]]

theorem roll_modifyAlias (id : AliasId) {change : AliasDef → AliasDef} (hname : ∀ a, (change a).name = a.name)
    (htarget : ∀ a, (change a).target = a.target) : (c.modifyAlias id change).roll = c.roll := by
  unfold roll modifyAlias
  rw [map_modify_same fun a => by rw [hname, htarget]]

theorem roll_modifyMacro (id : MacroId) {change : MacroDef → MacroDef} (h : ∀ m, (change m).decl = m.decl) :
    (c.modifyMacro id change).roll = c.roll := by
  unfold roll modifyMacro
  rw [map_modify_same h]

/-! ## Declarations -/

theorem roll_withGlobal (c : Context) (g : Global) :
    (c.withGlobal g).roll = { c.roll with globals := c.roll.globals ++ [g.kind] } := by
  simp [roll, withGlobal]

theorem roll_withMethod {owner : StructId} {g : Global} {r : Roll} {decl : Surface.StructDecl}
    {members : List GlobalId} (howner : owner.index = r.structs.length)
    (hroll : c.roll = { r with structs := r.structs ++ [(decl, members)] }) :
    (c.withMethod owner g).roll =
      { r with
        globals := r.globals ++ [g.kind]
        structs := r.structs ++ [(decl, members ++ [⟨r.globals.length⟩])] } := by
  have hkept : c.roll.globals = r.globals := by rw [hroll]
  have hsize : c.globals.size = r.globals.length := by
    rw [← hkept]
    simp [roll]
  have hglobals : (c.withMethod owner g).roll.globals = r.globals ++ [g.kind] := by
    rw [← hkept]
    exact congrArg Roll.globals (c.roll_withGlobal g)
  have hstructs : (c.withMethod owner g).roll.structs =
      r.structs ++ [(decl, members ++ [⟨r.globals.length⟩])] := by
    calc (c.withMethod owner g).roll.structs
      _ = c.roll.structs.modify owner.index fun x => (x.1, x.2 ++ [⟨c.globals.size⟩]) :=
        map_modify (fun d => by simp) c.structs owner.index
      _ = (r.structs ++ [(decl, members)]).modify r.structs.length
          fun x => (x.1, x.2 ++ [⟨r.globals.length⟩]) := by
        rw [hroll, howner, hsize]
      _ = r.structs ++ [(decl, members ++ [⟨r.globals.length⟩])] := by
        rw [List.modify_eq_take_drop, List.take_left, List.drop_left]
        rfl
  have haliases : c.roll.aliases = r.aliases := by rw [hroll]
  have hmacros : c.roll.macros = r.macros := by rw [hroll]
  exact Roll.ext hglobals hstructs haliases hmacros

/-- The functions of a struct are entered one after another, behind those that were already. -/
theorem roll_withMethods {owner : StructId} {scope : Scope} {symbol display : String} {isInstance : Bool}
    {r : Roll} {decl : Surface.StructDecl} {members : List GlobalId} {methods : List Surface.FnDecl}
    (howner : owner.index = r.structs.length)
    (hroll : c.roll = { r with structs := r.structs ++ [(decl, members)] }) :
    (c.withMethods owner scope symbol display isInstance methods).roll =
      { r with
        globals := r.globals ++ methods.map fun method => .function method (some owner)
        structs := r.structs ++
          [(decl, members ++ (List.range' r.globals.length methods.length).map GlobalId.mk)] } := by
  induction methods generalizing c r members with
  | nil => simpa [withMethods] using hroll
  | cons method rest ih =>
    have hstep := roll_withMethod (g := c.functionOf method scope (some owner) (symbol ++ "." ++ method.name.name)
      (display ++ "::" ++ method.name.name) isInstance) howner hroll
    refine (ih (r := { r with globals := r.globals ++ [.function method (some owner)] }) howner hstep).trans ?_
    simp [List.range'_succ]

theorem roll_newStruct (c : Context) (decl : Surface.StructDecl) (scope : Scope) (symbol display : String)
    (isInstance : Bool) : (c.newStruct decl scope symbol display isInstance).roll = c.roll.enter (.struct decl) := by
  have hsize : (⟨c.structs.size⟩ : StructId).index = c.roll.structs.length := by simp [roll]
  have hadded : (c.withStruct (structOf decl scope symbol display isInstance)).roll =
      { c.roll with structs := c.roll.structs ++ [(decl, [])] } := by
    simp [roll, withStruct, structOf]
  have hall : (c.newStruct decl scope symbol display isInstance).roll = _ :=
    roll_withMethods hsize hadded
  rw [hall, Roll.enter, ← hsize, List.nil_append]

end Context

namespace Check

open Context

variable {ask : Asker} {c d : Context} {r : Roll}

theorem roll_declareEntity {kind : Surface.ItemKind} {scope : Scope} {names : Option InstanceNames}
    {member : Option Member} (h : declareEntity kind scope names c = .ok member d) :
    d.roll = c.roll.enter kind := by
  cases kind with
  | function decl =>
    rw [declareEntity_function] at h
    cases h
    exact c.roll_withGlobal _
  | struct decl =>
    rw [declareEntity_struct] at h
    cases h
    exact c.roll_newStruct ..
  | global decl =>
    rw [declareEntity_global] at h
    cases h
    exact c.roll_withGlobal _
  | typeAlias name target =>
    rw [declareEntity_typeAlias] at h
    cases h
    simp [Context.roll, Context.withAlias, Context.aliasOf, Roll.enter]
  | macroDecl decl =>
    rw [declareEntity_macroDecl] at h
    obtain ⟨_, e, hmacro, hreturn⟩ := Run.bind_eq_ok.mp h
    cases hreturn
    obtain ⟨m, rfl, -, rfl⟩ := declareMacro_eq_ok hmacro
    simp [Context.roll, Context.withMacro, Context.modifyPackage, Roll.enter]

/-- A declaration that is refused leaves nothing behind. -/
theorem declareEntity_eq_error {kind : Surface.ItemKind} {scope : Scope} {names : Option InstanceNames}
    {e : Diagnostic} (h : declareEntity kind scope names c = .error e d) : d = c := by
  cases kind with
  | function decl =>
    rw [declareEntity_function] at h
    cases h
  | struct decl =>
    rw [declareEntity_struct] at h
    cases h
  | global decl =>
    rw [declareEntity_global] at h
    cases h
  | typeAlias name target =>
    rw [declareEntity_typeAlias] at h
    cases h
  | macroDecl decl =>
    rw [declareEntity_macroDecl] at h
    rcases Run.bind_eq_error.mp h with hmacro | ⟨_, _, -, hreturn⟩
    · unfold declareMacro at hmacro
      rcases Run.bind_eq_error.mp hmacro with hget | ⟨_, _, hget, hmacro⟩
      · cases hget
      · cases hget
        cases hfound : (c.package scope.package).macro? decl.name.name with
        | some existing =>
          rw [hfound] at hmacro
          cases hmacro
          rfl
        | none =>
          rw [hfound] at hmacro
          cases hmacro
    · cases hreturn

/-- What was on a roll still is, and structs have the functions of their declarations. -/
structure Enrolled (r : Roll) (c : Context) : Prop where
  begins : r.Begins c.roll
  staffed : c.roll.Staffed

theorem Enrolled.of_eq (hc : Enrolled r c) (h : d.roll = c.roll) : Enrolled r d :=
  ⟨h ▸ hc.begins, h ▸ hc.staffed⟩

theorem enrolled_declareEntity (kind : Surface.ItemKind) (scope : Scope) (names : Option InstanceNames) :
    (declareEntity kind scope names).Preserves (Enrolled r) := by
  intro c d h hc
  rcases h with ⟨member, h⟩ | ⟨e, h⟩
  · have hroll := roll_declareEntity h
    exact ⟨hroll ▸ hc.begins.trans (c.roll.begins_enter kind), hroll ▸ hc.staffed.enter kind⟩
  · rwa [declareEntity_eq_error h]

theorem enrolled_detached {α : Type} {work : Check α} (h : work.Preserves (Enrolled r)) :
    (detached work).Preserves (Enrolled r) := by
  intro c d hd hc
  have hwork : (work.andFinally fun e => { e with frame := c.frame }).Preserves (Enrolled r) :=
    h.andFinally fun e he => he.of_eq rfl
  exact hwork hd (hc.of_eq rfl)

theorem enrolled_modifyFrame (change : Frame → Frame) : (modifyFrame change).Preserves (Enrolled r) :=
  Run.preserves_modify fun _ hc => hc.of_eq rfl

section

variable (ha : ∀ q, (ask q).Preserves (Enrolled r))

include ha

theorem enrolled_stable : Stable ask (Enrolled r) where
  answers q _ := ha q
  detached := enrolled_detached
  consume := preserves_consume enrolled_modifyFrame
  aliasStarted _ id hc := hc.of_eq (roll_modifyAlias id (fun _ => rfl) fun _ => rfl)
  aliasDone _ id _ hc := hc.of_eq (roll_modifyAlias id (fun _ => rfl) fun _ => rfl)
  structResolved := preserves_resolveStruct (fun q _ => ha q) enrolled_detached
    (fun _ id hc => hc.of_eq (roll_modifyStruct id (fun _ => rfl) fun _ => rfl))
    fun _ id _ hc => hc.of_eq (roll_modifyStruct id (fun _ => rfl) fun _ => rfl)
  macroDone _ id _ _ hc := hc.of_eq (roll_modifyMacro id fun _ => rfl)
  instantiate := preserves_instance (fun _ _ _ _ _ _ _ => enrolled_declareEntity _ _ _)
    (fun q _ => ha q) enrolled_detached (fun _ _ _ hc => hc.of_eq rfl) fun _ _ _ hc => hc.of_eq rfl

theorem enrolled_lasting : Lasting ask (Enrolled r) where
  toStable := enrolled_stable ha
  everyAnswer := ha
  agrees _ _ h hc := hc.of_eq (by simp only [roll, h.globals, h.structs, h.aliases, h.macros])
  bodyOpened _ _ _ hc := hc.of_eq rfl
  bodyClosed _ hc := hc.of_eq rfl
  param _ _ := preserves_declareLocal enrolled_modifyFrame _ _ _ _
  receiver _ _ := preserves_declareLocal enrolled_modifyFrame _ _ _ _
  declared := preserves_declStmt enrolled_modifyFrame (enrolled_stable ha)
  packages _ _ hc := hc.of_eq rfl
  entityDeclared := enrolled_declareEntity
  templateDeclared _ := preserves_declareTemplate (fun _ _ hc => hc.of_eq rfl)
    fun _ _ _ hc => hc.of_eq rfl
  bodyTaken _ _ _ _ hc := hc.of_eq rfl
  bodyAccepted _ _ _ _ _ _ hd := hd.of_eq rfl

end

theorem enrolled_answer (q : Query) : (answer q).Preserves (Enrolled r) := by
  refine preserves_answerTo (fun ask ha => ?_) nestingBound q
  refine (enrolled_lasting ha).toInvariant.step (preserves_resolveGlobal (enrolled_stable ha) ?_ ?_)
  · exact fun _ id hc => hc.of_eq (roll_modifyGlobal id fun _ => rfl)
  · exact fun _ id _ _ hc => hc.of_eq (roll_modifyGlobal id fun _ => rfl)

/-! ## Files -/

theorem roll_packageId (name : String) : (packageId name).Preserves (·.roll = r) :=
  preserves_packageId (fun _ _ hc => hc) name

/-- A declaration of a file is entered if it is no template. -/
theorem roll_declareItem {item : Surface.Item} {scope : Scope} (h : declareItem item scope c = .ok ⟨⟩ d) :
    d.roll = if item.template.isEmpty then c.roll.enter item.kind else c.roll := by
  unfold declareItem at h
  split at h
  · rename_i hplain
    obtain ⟨made, e, hentity, h⟩ := Run.bind_eq_ok.mp h
    rw [if_pos hplain, ← roll_declareEntity hentity]
    cases made with
    | none =>
      cases h
      rfl
    | some member =>
      cases h
      rfl
  · rename_i htemplate
    rw [if_neg htemplate]
    cases h
    rfl

theorem roll_items {items : List Surface.Item} {scope : Scope} {u : PUnit}
    (h : (forIn items PUnit.unit fun item _ => do
      declareItem item scope
      pure (ForInStep.yield PUnit.unit) : Check PUnit) c = .ok u d) :
    d.roll = (items.filter (·.template.isEmpty)).foldl (fun r item => r.enter item.kind) c.roll := by
  induction items generalizing c with
  | nil =>
    cases h
    rfl
  | cons item rest ih =>
    rw [List.forIn_cons] at h
    obtain ⟨step, e, hstep, hrest⟩ := Run.bind_eq_ok.mp h
    obtain ⟨⟨⟩, e', hitem, hyield⟩ := Run.bind_eq_ok.mp hstep
    cases hyield
    rw [ih hrest, roll_declareItem hitem, List.filter_cons]
    split <;> rfl

theorem roll_declareModule {file : Surface.Module} (h : declareModule file c = .ok ⟨⟩ d) :
    d.roll = (file.items.filter (·.template.isEmpty)).foldl (fun r item => r.enter item.kind) c.roll := by
  unfold declareModule at h
  obtain ⟨package, e, hpackage, h⟩ := Run.bind_eq_ok.mp h
  obtain ⟨imports, e', himports, h⟩ := Run.bind_eq_ok.mp h
  obtain ⟨u, e'', hitems, hreturn⟩ := Run.bind_eq_ok.mp h
  cases hreturn
  have he : e.roll = c.roll := roll_packageId _ (Run.ends_of_ok hpackage) rfl
  have he' : e'.roll = c.roll := preserves_importsOf roll_packageId _ _ (Run.ends_of_ok himports) he
  rw [roll_items hitems, he']

/-- Files enter their declarations in order. -/
theorem roll_files {files : List Surface.Module} {u : PUnit} (h : (forIn files PUnit.unit fun file _ => do
      declareModule file
      pure (ForInStep.yield PUnit.unit) : Check PUnit) c = .ok u d) :
    d.roll = ((files.flatMap (·.items)).filter (·.template.isEmpty)).foldl (fun r item => r.enter item.kind)
      c.roll := by
  induction files generalizing c with
  | nil =>
    cases h
    rfl
  | cons file rest ih =>
    rw [List.forIn_cons] at h
    obtain ⟨step, e, hstep, hrest⟩ := Run.bind_eq_ok.mp h
    obtain ⟨⟨⟩, e', hmodule, hyield⟩ := Run.bind_eq_ok.mp hstep
    cases hyield
    rw [ih hrest, roll_declareModule hmodule, List.flatMap_cons, List.filter_append, List.foldl_append]

/-- A program that is accepted holds what its files declare, and its structs have the functions that they declare. -/
theorem enrolled_checkModules {files : List Surface.Module} {options : Options}
    (h : checkModules files { options } = .ok ⟨⟩ c) : Enrolled (.ofFiles files) c := by
  obtain ⟨u, c₁, hfiles, h⟩ := Run.bind_eq_ok.mp h
  have hroll : c₁.roll = .ofFiles files := roll_files hfiles
  have hlasting : Lasting answer (Enrolled (.ofFiles files)) := enrolled_lasting enrolled_answer
  have hstart : Enrolled (.ofFiles files) c₁ := ⟨hroll ▸ .refl _, hroll ▸ Roll.staffed_ofFiles files⟩
  exact hlasting.following.preserves_passes (Run.ends_of_ok h) hstart

end Check

end OwnLang
