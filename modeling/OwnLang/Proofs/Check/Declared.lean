import Mathlib
import OwnLang.Proofs.Check.Symbols
import OwnLang.Proofs.Core.Mentions
import OwnLang.Proofs.Run
import OwnLang.Check.Declare

/-!
# What a declaration adds

A declaration never fails, macros aside, and adds entities behind those that there are. So the context
behind it is given by what it adds (`Context.newFunction` and the definitions beside it). Whether all
that a context mentions is declared (`Context.Closed`), which symbols its entities have and which bodies
wait (`Context.Queues`) is looked at for each addition.
-/

namespace OwnLang

namespace Context

/-- All structs that a context mentions are declared in it. -/
structure Closed (c : Context) : Prop where
  packages : ∀ id, c.Knows (c.package id)
  globals : ∀ id, c.Knows (c.global id)
  structs : ∀ id, c.Knows (c.struct id)
  aliases : ∀ id, c.Knows (c.typeAlias id)
  macros : ∀ id, c.Knows (c.macroDef id)
  templates : ∀ id, c.Knows (c.template id)
  frame : c.Knows c.frame

/-- The functions with a body, in the order of declaration. -/
def bodied (c : Context) : List GlobalId :=
  ((List.range c.globals.size).map GlobalId.mk).filter fun id => (c.global id).hasBody

theorem mem_bodied {c : Context} {id : GlobalId} : id ∈ c.bodied ↔ (c.global id).hasBody := by
  refine ⟨fun h => (List.mem_filter.mp h).2, fun h => List.mem_filter.mpr ⟨?_, h⟩⟩
  refine List.mem_map.mpr ⟨id.index, List.mem_range.mpr (Nat.lt_of_not_le fun hid => ?_), rfl⟩
  rw [Check.global_of_size_le hid] at h
  cases h

theorem nodup_bodied (c : Context) : c.bodied.Nodup :=
  (List.nodup_range.map fun _ _ h => GlobalId.mk.inj h).filter _

/-- The functions with a body that were declared in between wait behind the others. -/
def Queues (c d : Context) : Prop :=
  ∃ new, d.pending = c.pending ++ new ∧ d.bodied = c.bodied ++ new

variable {c d e : Context} {bound : Nat}

theorem Queues.refl (c : Context) : c.Queues c := ⟨[], by simp, by simp⟩

theorem Queues.trans (h : c.Queues d) (h' : d.Queues e) : c.Queues e := by
  obtain ⟨new, hpending, hbodied⟩ := h
  obtain ⟨new', hpending', hbodied'⟩ := h'
  exact ⟨new ++ new', by rw [hpending', hpending, List.append_assoc],
    by rw [hbodied', hbodied, List.append_assoc]⟩

theorem bodied_congr (hsize : d.globals.size = c.globals.size)
    (hbody : ∀ id, (d.global id).hasBody = (c.global id).hasBody) : d.bodied = c.bodied := by
  unfold bodied
  rw [hsize]
  simp only [hbody]

theorem queues_of_eq (hpending : d.pending = c.pending) (hsize : d.globals.size = c.globals.size)
    (hbody : ∀ id, (d.global id).hasBody = (c.global id).hasBody) : c.Queues d :=
  ⟨[], by rw [hpending, List.append_nil], by rw [bodied_congr hsize hbody, List.append_nil]⟩

/-! ## Functions and variables -/

/-- The context with one more global. -/
def withGlobal (c : Context) (g : Global) : Context :=
  { c with
    globals := c.globals.push g
    pending := if g.hasBody then c.pending ++ [⟨c.globals.size⟩] else c.pending }

theorem global_withGlobal (c : Context) (g : Global) (id : GlobalId) :
    (c.withGlobal g).global id = if id.index = c.globals.size then g else c.global id :=
  Check.global_push c g _ id

theorem bodied_withGlobal (c : Context) (g : Global) : (c.withGlobal g).bodied =
    c.bodied ++ if g.hasBody then [⟨c.globals.size⟩] else [] := by
  have hsize : (c.withGlobal g).globals.size = c.globals.size + 1 := Array.size_push _
  unfold bodied
  rw [hsize, List.range_succ, List.map_append, List.filter_append]
  congr 1
  · refine List.filter_congr fun id hid => ?_
    obtain ⟨i, hi, rfl⟩ := List.mem_map.mp hid
    rw [global_withGlobal, if_neg (Nat.ne_of_lt (List.mem_range.mp hi))]
  · simp [global_withGlobal, List.filter_cons]

theorem queues_withGlobal (c : Context) (g : Global) : c.Queues (c.withGlobal g) := by
  refine ⟨_, ?_, c.bodied_withGlobal g⟩
  unfold withGlobal
  split <;> simp

theorem Closed.withGlobal (h : c.Closed) {g : Global} (hg : c.Knows g) : (c.withGlobal g).Closed where
  packages := h.packages
  globals id := by
    rw [global_withGlobal]
    split
    · exact hg
    · exact h.globals id
  structs := h.structs
  aliases := h.aliases
  macros := h.macros
  templates := h.templates
  frame := h.frame

theorem memberNames_withGlobal (h : c.Labelled bound) (g : Global) (id : StructId) :
    (c.withGlobal g).memberNames id = c.memberNames id := by
  refine List.map_congr_left fun member hmember => ?_
  rw [global_withGlobal, if_neg (Nat.ne_of_lt (h.members id member hmember))]

/-- What was declared before a global keeps its path. -/
theorem Pathed.of_withGlobal {g : Global} {id : GlobalId} (h : (c.withGlobal g).Pathed id)
    (hid : id.index ≠ c.globals.size) : c.Pathed id := by
  obtain ⟨hlt, hprovided⟩ := h
  rw [global_withGlobal, if_neg hid] at hprovided
  replace hlt : id.index < c.globals.size + 1 := hlt.trans_eq (Array.size_push _)
  exact ⟨by omega, hprovided⟩

/-- A function of a package, or a variable. -/
theorem Labelled.withGlobal (h : c.Labelled bound) {g : Global} (hnone : g.owner? = none)
    (hsymbol : ¬g.isExternal → Numbered bound g.symbol) (hname : g.isExternal → IsWord g.symbol) :
    (c.withGlobal g).Labelled bound where
  packages := h.packages
  templates := h.templates
  structs := h.structs
  globals id hid howner := by
    have hprovided := hid.2 howner
    rw [global_withGlobal] at howner hprovided ⊢
    split at howner
    · rename_i hnew
      rw [if_pos hnew] at hprovided ⊢
      exact hsymbol hprovided
    · rename_i hold
      rw [if_neg hold]
      exact h.globals id (hid.of_withGlobal hold) howner
  externals id := by
    rw [global_withGlobal]
    split
    · exact fun _ => hname
    · exact h.externals id
  methods id owner := by
    rw [global_withGlobal]
    split
    · intro howner
      rw [hnone] at howner
      cases howner
    · rename_i hid
      intro howner
      have howns := h.methods id owner howner
      refine ⟨howns.declared, howns.member, ?_, ?_⟩
      · rw [global_withGlobal, if_neg hid]
        exact howns.symbol
      · rw [global_withGlobal, if_neg hid]
        exact howns.word
  members id member hmember :=
    (h.members id member hmember).trans_le (by simp [Context.withGlobal])
  unclashing id hstate := by
    rw [memberNames_withGlobal h]
    exact h.unclashing id hstate

theorem Apart.withGlobal (h : c.Apart) {g : Global} (hnone : g.owner? = none) (hnew : ¬g.isExternal → ∀ id,
    c.Pathed id → (c.global id).owner? = none → (c.global id).symbol ≠ g.symbol) :
    (c.withGlobal g).Apart where
  structs := h.structs
  globals id id' hid howner hid' howner' := by
    have hadded {id : GlobalId} (hid : (c.withGlobal g).Pathed id) (heq : id.index = c.globals.size) :
        ¬g.isExternal := by
      have hprovided := hid.2
      rw [global_withGlobal, if_pos heq] at hprovided
      exact hprovided hnone
    rw [global_withGlobal] at howner howner' ⊢
    rw [global_withGlobal]
    split <;> rename_i heq <;> split <;> rename_i heq'
    · intro _
      cases id
      cases id'
      simp_all
    · rw [if_neg heq'] at howner'
      exact fun hsymbol =>
        absurd hsymbol.symm (hnew (hadded hid heq) id' (hid'.of_withGlobal heq') howner')
    · rw [if_neg heq] at howner
      exact fun hsymbol => absurd hsymbol (hnew (hadded hid' heq') id (hid.of_withGlobal heq) howner)
    · rw [if_neg heq] at howner
      rw [if_neg heq'] at howner'
      exact h.globals id id' (hid.of_withGlobal heq) howner (hid'.of_withGlobal heq') howner'

/-! ## Structs -/

/-- The context with one more struct. -/
def withStruct (c : Context) (s : StructDef) : Context := { c with structs := c.structs.push s }

theorem struct_withStruct (c : Context) (s : StructDef) (id : StructId) :
    (c.withStruct s).struct id = if id.index = c.structs.size then s else c.struct id :=
  Check.struct_push c s id

theorem size_withStruct (c : Context) (s : StructDef) :
    (c.withStruct s).structs.size = c.structs.size + 1 := Array.size_push _

theorem Closed.withStruct (h : c.Closed) {s : StructDef} (hs : c.Knows s) :
    (c.withStruct s).Closed := by
  have hsize : c.structs.size ≤ (c.withStruct s).structs.size := by simp [size_withStruct]
  refine ⟨fun id => (h.packages id).mono hsize, fun id => (h.globals id).mono hsize, fun id => ?_,
    fun id => (h.aliases id).mono hsize, fun id => (h.macros id).mono hsize,
    fun id => (h.templates id).mono hsize, h.frame.mono hsize⟩
  rw [struct_withStruct]
  split
  · exact hs.mono hsize
  · exact (h.structs id).mono hsize

theorem Labelled.withStruct (h : c.Labelled bound) {s : StructDef} (hsymbol : Numbered bound s.symbol)
    (hmembers : s.members = []) : (c.withStruct s).Labelled bound where
  packages := h.packages
  templates := h.templates
  structs id := by
    rw [struct_withStruct]
    split
    · exact hsymbol
    · exact h.structs id
  globals := h.globals
  externals := h.externals
  methods id owner howner := by
    have howns := h.methods id owner howner
    have hne : owner.index ≠ c.structs.size := Nat.ne_of_lt howns.declared
    refine ⟨howns.declared.trans_le (by simp [size_withStruct]), ?_, ?_, howns.word⟩
    · rw [struct_withStruct, if_neg hne]
      exact howns.member
    · rw [struct_withStruct, if_neg hne]
      exact howns.symbol
  members id := by
    rw [struct_withStruct]
    split
    · rw [hmembers]
      exact fun member hmember => absurd hmember List.not_mem_nil
    · exact h.members id
  unclashing id hstate := by
    have hunclashing := h.unclashing id
    unfold memberNames at hunclashing ⊢
    rw [struct_withStruct] at hstate ⊢
    split
    · rw [hmembers]
      exact List.nodup_nil
    · rename_i hid
      rw [if_neg hid] at hstate
      exact hunclashing hstate

theorem Apart.withStruct (h : c.Apart) {s : StructDef} (hnew : ∀ id : StructId,
    id.index < c.structs.size → (c.struct id).symbol ≠ s.symbol) : (c.withStruct s).Apart where
  structs id id' := by
    rw [struct_withStruct, struct_withStruct, size_withStruct]
    split <;> rename_i hid <;> split <;> rename_i hid'
    · intro _ _ _
      cases id
      cases id'
      simp_all
    · exact fun _ hlt hsymbol => absurd hsymbol.symm (hnew id' (by omega))
    · exact fun hlt _ hsymbol => absurd hsymbol (hnew id (by omega))
    · exact fun hlt hlt' => h.structs id id' (by omega) (by omega)
  globals := h.globals

/-! ## Functions of structs -/

/-- The context with one more function, which belongs to a struct. -/
def withMethod (c : Context) (owner : StructId) (g : Global) : Context :=
  (c.withGlobal g).modifyStruct owner fun s =>
    { s with members := s.members ++ [(g.name.name, ⟨c.globals.size⟩)] }

theorem global_withMethod (c : Context) (owner : StructId) (g : Global) (id : GlobalId) :
    (c.withMethod owner g).global id = if id.index = c.globals.size then g else c.global id :=
  global_withGlobal c g id

/-- What belongs to no struct was there before. -/
theorem global_withMethod_of_owner {owner : StructId} {g : Global} (howner : g.owner? = some owner)
    {id : GlobalId} (hnone : ((c.withMethod owner g).global id).owner? = none) :
    id.index ≠ c.globals.size ∧ (c.global id).owner? = none := by
  rw [global_withMethod] at hnone
  split at hnone
  · rw [howner] at hnone
    cases hnone
  · exact ⟨‹_›, hnone⟩

theorem struct_withMethod (c : Context) (owner : StructId) (g : Global) (id : StructId) :
    (c.withMethod owner g).struct id =
      if owner.index = id.index ∧ id.index < c.structs.size then
        { c.struct id with members := (c.struct id).members ++ [(g.name.name, ⟨c.globals.size⟩)] }
      else c.struct id := Check.struct_modifyStruct _ _ _ _

theorem size_withMethod (c : Context) (owner : StructId) (g : Global) :
    (c.withMethod owner g).structs.size = c.structs.size := Array.size_modify

theorem queues_withMethod (c : Context) (owner : StructId) (g : Global) :
    c.Queues (c.withMethod owner g) := c.queues_withGlobal g

theorem Closed.withMethod (h : c.Closed) {g : Global} (hg : c.Knows g) (owner : StructId) :
    (c.withMethod owner g).Closed := by
  have hsize : (c.withGlobal g).structs.size ≤ (c.withMethod owner g).structs.size :=
    (c.size_withMethod owner g).ge
  have hadded := h.withGlobal hg
  refine ⟨fun id => (hadded.packages id).mono hsize, fun id => (hadded.globals id).mono hsize,
    fun id => ?_, fun id => (hadded.aliases id).mono hsize, fun id => (hadded.macros id).mono hsize,
    fun id => (hadded.templates id).mono hsize, hadded.frame.mono hsize⟩
  rw [struct_withMethod]
  split
  · exact (h.structs id).mono hsize
  · exact (h.structs id).mono hsize

theorem Labelled.withMethod (h : c.Labelled bound) {owner : StructId} {g : Global}
    (hdeclared : owner.index < c.structs.size) (hstate : (c.struct owner).state ≠ .complete)
    (howner : g.owner? = some owner) (hword : IsWord g.name.name)
    (hsymbol : g.symbol = behindDot (c.struct owner).symbol g.name.name) :
    (c.withMethod owner g).Labelled bound where
  packages := h.packages
  templates := h.templates
  structs id := by
    rw [struct_withMethod]
    split <;> exact h.structs id
  globals id hid hnone := by
    obtain ⟨hold, hnone⟩ := global_withMethod_of_owner howner hnone
    rw [global_withMethod, if_neg hold]
    exact h.globals id (Pathed.of_withGlobal hid hold) hnone
  externals id hnone := by
    obtain ⟨hold, hnone⟩ := global_withMethod_of_owner howner hnone
    rw [global_withMethod, if_neg hold]
    exact h.externals id hnone
  methods id owner' := by
    rw [global_withMethod]
    split
    · rename_i hid
      intro hsome
      obtain rfl : owner = owner' := Option.some.inj (howner.symm.trans hsome)
      have hnew : id = ⟨c.globals.size⟩ := congrArg GlobalId.mk hid
      refine ⟨hdeclared.trans_eq (c.size_withMethod _ _).symm, ?_, ?_, ?_⟩
      · rw [struct_withMethod, if_pos ⟨rfl, hdeclared⟩, hnew]
        simp
      · rw [global_withMethod, if_pos hid, struct_withMethod, if_pos ⟨rfl, hdeclared⟩]
        exact hsymbol
      · rw [global_withMethod, if_pos hid]
        exact hword
    · rename_i hid
      intro hsome
      have howns := h.methods id owner' hsome
      refine ⟨howns.declared.trans_eq (c.size_withMethod _ _).symm, ?_, ?_, ?_⟩
      · rw [struct_withMethod]
        split
        · rw [List.map_append]
          exact List.mem_append_left _ howns.member
        · exact howns.member
      · rw [global_withMethod, if_neg hid, struct_withMethod]
        split <;> exact howns.symbol
      · rw [global_withMethod, if_neg hid]
        exact howns.word
  members id := by
    have hsize : (c.withMethod owner g).globals.size = c.globals.size + 1 := Array.size_push _
    rw [struct_withMethod, hsize]
    split
    · intro member hmember
      rcases List.mem_append.mp hmember with hmember | hmember
      · exact Nat.lt_succ_of_lt (h.members id member hmember)
      · rw [List.mem_singleton.mp hmember]
        exact Nat.lt_succ_self _
    · exact fun member hmember => Nat.lt_succ_of_lt (h.members id member hmember)
  unclashing id := by
    unfold memberNames
    rw [struct_withMethod]
    split
    · rename_i hid
      obtain rfl : owner = id := congrArg StructId.mk hid.1
      exact fun hcomplete => absurd hcomplete hstate
    · intro hcomplete
      have hunclashing := h.unclashing id hcomplete
      rw [← memberNames_withGlobal h g id] at hunclashing
      exact hunclashing

theorem Apart.withMethod (h : c.Apart) {owner : StructId} {g : Global} (howner : g.owner? = some owner) :
    (c.withMethod owner g).Apart where
  structs id id' := by
    rw [struct_withMethod, struct_withMethod, size_withMethod]
    split <;> split <;> exact h.structs id id'
  globals id id' hid hnone hid' hnone' := by
    obtain ⟨hold, hnone⟩ := global_withMethod_of_owner howner hnone
    obtain ⟨hold', hnone'⟩ := global_withMethod_of_owner howner hnone'
    rw [global_withMethod, if_neg hold, global_withMethod, if_neg hold']
    exact h.globals id id' (Pathed.of_withGlobal hid hold) hnone (Pathed.of_withGlobal hid' hold') hnone'

/-! ## Declarations -/

/-- A function as it is declared. -/
def functionOf (c : Context) (decl : Surface.FnDecl) (scope : Scope) (owner : Option StructId)
    (symbol display : String) (isInstance : Bool) : Global where
  package := scope.package
  name := decl.name
  display
  symbol
  constant := true
  kind := .function decl owner
  scope
  type := none
  state := .declared
  value := none
  isInstance
  depth := if isInstance then c.instantiationDepth else 0

/-- A variable as it is declared. -/
def variableOf (c : Context) (decl : Surface.VarDecl) (scope : Scope) (symbol display : String)
    (isInstance : Bool) : Global where
  package := scope.package
  name := decl.name
  display
  symbol
  constant := decl.constant
  kind := .storage decl
  scope
  type := none
  state := .declared
  value := none
  isInstance
  depth := if isInstance then c.instantiationDepth else 0

/-- A struct as it is declared, still without its functions. -/
def structOf (decl : Surface.StructDecl) (scope : Scope) (symbol display : String)
    (isInstance : Bool) : StructDef where
  package := scope.package
  name := decl.name
  display
  symbol
  decl
  scope
  fields := []
  members := []
  state := .declared
  isInstance

/-- An alias as it is declared. -/
def aliasOf (name : Surface.Ident) (target : Surface.TypeExpr) (scope : Scope) (display : String) :
    AliasDef where
  package := scope.package
  name
  display
  target
  scope
  resolved := none
  state := .declared

/-- The context with one more alias. -/
def withAlias (c : Context) (a : AliasDef) : Context := { c with aliases := c.aliases.push a }

/-- The context with more functions of a struct. -/
def withMethods (c : Context) (owner : StructId) (scope : Scope) (symbol display : String)
    (isInstance : Bool) (methods : List Surface.FnDecl) : Context :=
  methods.foldl (fun c method => c.withMethod owner
    (c.functionOf method scope (some owner) (symbol ++ "." ++ method.name.name)
      (display ++ "::" ++ method.name.name) isInstance)) c

/-- The context with one more struct and its functions. -/
def newStruct (c : Context) (decl : Surface.StructDecl) (scope : Scope) (symbol display : String)
    (isInstance : Bool) : Context :=
  (c.withStruct (structOf decl scope symbol display isInstance)).withMethods ⟨c.structs.size⟩ scope
    symbol display isInstance decl.methods

theorem declareMethods_apply (c : Context) (owner : StructId) (scope : Scope)
    (symbol display : String) (isInstance : Bool) (methods : List Surface.FnDecl) :
    (forIn methods PUnit.unit fun method (_ : PUnit) => do
      let function ← Check.declareFunction method scope (some owner)
        (symbol ++ "." ++ method.name.name) (display ++ "::" ++ method.name.name) isInstance
      modify fun c => c.modifyStruct owner fun d =>
        { d with members := d.members ++ [(method.name.name, function)] }
      pure (ForInStep.yield PUnit.unit) : Check PUnit) c =
      .ok ⟨⟩ (c.withMethods owner scope symbol display isInstance methods) := by
  induction methods generalizing c with
  | nil => rfl
  | cons method rest ih =>
    rw [List.forIn_cons]
    exact ih _

theorem declareStruct_apply (c : Context) (decl : Surface.StructDecl) (scope : Scope)
    (symbol display : String) (isInstance : Bool) :
    Check.declareStruct decl scope symbol display isInstance c = .ok ⟨c.structs.size⟩
      (c.newStruct decl scope symbol display isInstance) := by
  have hmethods := declareMethods_apply
    (c.withStruct (structOf decl scope symbol display isInstance)) ⟨c.structs.size⟩ scope symbol
    display isInstance decl.methods
  refine Run.bind_eq_ok.mpr ⟨c, c, rfl, Run.bind_eq_ok.mpr ⟨⟨⟩, _, rfl, ?_⟩⟩
  exact Run.bind_eq_ok.mpr ⟨⟨⟩, _, hmethods, rfl⟩

/-- What holds of a context and is kept by every function that is added to a struct. -/
theorem withMethods_induction {P : Context → Prop} {owner : StructId} {scope : Scope}
    {symbol display : String} {isInstance : Bool} {methods : List Surface.FnDecl} (hc : P c)
    (hstep : ∀ d, P d → ∀ method ∈ methods, P (d.withMethod owner
      (d.functionOf method scope (some owner) (symbol ++ "." ++ method.name.name)
        (display ++ "::" ++ method.name.name) isInstance))) :
    P (c.withMethods owner scope symbol display isInstance methods) := by
  induction methods generalizing c with
  | nil => exact hc
  | cons method rest ih =>
    exact ih (hstep c hc method List.mem_cons_self) fun d hd other hother =>
      hstep d hd other (List.mem_cons_of_mem _ hother)

/-- Functions, variables and structs were added. -/
structure Adds (c d : Context) : Prop where
  packages : d.packages = c.packages
  aliases : d.aliases = c.aliases
  macros : d.macros = c.macros
  templates : d.templates = c.templates
  bodies : d.bodies = c.bodies
  entry : d.entry = c.entry
  frame : d.frame = c.frame
  instanceCount : d.instanceCount = c.instanceCount
  structCount : c.structs.size ≤ d.structs.size
  structs : ∀ id : StructId, id.index < c.structs.size → d.struct id = c.struct id
  globalCount : c.globals.size ≤ d.globals.size
  globals : ∀ id : GlobalId, id.index < c.globals.size → d.global id = c.global id
  queues : c.Queues d

theorem Adds.refl (c : Context) : c.Adds c :=
  ⟨rfl, rfl, rfl, rfl, rfl, rfl, rfl, rfl, le_rfl, fun _ _ => rfl, le_rfl, fun _ _ => rfl, .refl c⟩

theorem Adds.withGlobal (h : c.Adds d) (g : Global) : c.Adds (d.withGlobal g) :=
  { h with
    globalCount := h.globalCount.trans (by simp [Context.withGlobal])
    globals := fun id hid => by
      rw [global_withGlobal, if_neg (Nat.ne_of_lt (hid.trans_le h.globalCount))]
      exact h.globals id hid
    queues := h.queues.trans (d.queues_withGlobal g) }

theorem Adds.withStruct (h : c.Adds d) (s : StructDef) : c.Adds (d.withStruct s) :=
  { h with
    structCount := h.structCount.trans (by simp [size_withStruct])
    structs := fun id hid => by
      rw [struct_withStruct, if_neg (Nat.ne_of_lt (hid.trans_le h.structCount))]
      exact h.structs id hid
    queues := h.queues }

theorem Adds.withMethod (h : c.Adds d) {owner : StructId} (hnew : c.structs.size ≤ owner.index)
    (g : Global) : c.Adds (d.withMethod owner g) where
  packages := h.packages
  aliases := h.aliases
  macros := h.macros
  templates := h.templates
  bodies := h.bodies
  entry := h.entry
  frame := h.frame
  instanceCount := h.instanceCount
  structCount := h.structCount.trans (d.size_withMethod owner g).ge
  structs id hid := by
    rw [struct_withMethod, if_neg fun hsame => absurd hsame.1 (Nat.ne_of_gt (hid.trans_le hnew))]
    exact h.structs id hid
  globalCount := (h.withGlobal g).globalCount
  globals := (h.withGlobal g).globals
  queues := h.queues.trans (d.queues_withMethod owner g)

section

variable {decl : Surface.StructDecl} {scope : Scope} {symbol display : String} {isInstance : Bool}

theorem adds_newStruct : c.Adds (c.newStruct decl scope symbol display isInstance) :=
  withMethods_induction ((Adds.refl c).withStruct _) fun _ hd _ _ => hd.withMethod le_rfl _

/-- A struct is declared together with its functions. -/
structure Opened (c : Context) (symbol : String) (d : Context) : Prop where
  size : d.structs.size = c.structs.size + 1
  state : (d.struct ⟨c.structs.size⟩).state = .declared
  symbol : (d.struct ⟨c.structs.size⟩).symbol = symbol

theorem opened_withStruct : c.Opened symbol
    (c.withStruct (structOf decl scope symbol display isInstance)) := by
  refine ⟨c.size_withStruct _, ?_, ?_⟩ <;> rw [struct_withStruct, if_pos rfl] <;> rfl

theorem Opened.withMethod (h : c.Opened symbol d) (g : Global) :
    c.Opened symbol (d.withMethod ⟨c.structs.size⟩ g) := by
  refine ⟨(d.size_withMethod _ _).trans h.size, ?_, ?_⟩
  · rw [struct_withMethod]
    split <;> exact h.state
  · rw [struct_withMethod]
    split <;> exact h.symbol

theorem opened_newStruct : c.Opened symbol (c.newStruct decl scope symbol display isInstance) :=
  withMethods_induction opened_withStruct fun _ hd _ _ => hd.withMethod _

theorem Closed.newStruct (h : c.Closed) (hscope : c.Knows scope) :
    (c.newStruct decl scope symbol display isInstance).Closed := by
  have hstruct : c.Knows (structOf decl scope symbol display isInstance) :=
    knows_structDef.mpr ⟨hscope, knows_nil⟩
  refine (withMethods_induction (P := fun d => d.Closed ∧ c.Opened symbol d)
    ⟨h.withStruct hstruct, opened_withStruct⟩ fun d ⟨hclosed, hopened⟩ method _ =>
      ⟨hclosed.withMethod ?_ _, hopened.withMethod _⟩).1
  have hsize : c.structs.size < d.structs.size := by rw [hopened.size]; exact Nat.lt_succ_self _
  exact knows_globalDef.mpr ⟨knows_structId.mpr hsize, hscope.mono hsize.le, knows_none⟩

theorem Labelled.newStruct (h : c.Labelled bound) (hsymbol : Numbered bound symbol)
    (hmethods : ∀ method ∈ decl.methods, IsWord method.name.name) :
    (c.newStruct decl scope symbol display isInstance).Labelled bound := by
  refine (withMethods_induction (P := fun d => d.Labelled bound ∧ c.Opened symbol d)
    ⟨h.withStruct hsymbol rfl, opened_withStruct⟩ fun d ⟨hlabelled, hopened⟩ method hmethod =>
      ⟨hlabelled.withMethod ?_ ?_ rfl (hmethods method hmethod) ?_, hopened.withMethod _⟩).1
  · rw [hopened.size]
    exact Nat.lt_succ_self _
  · rw [hopened.state]
    exact State.noConfusion
  · rw [hopened.symbol]
    rfl

theorem Apart.newStruct (h : c.Apart) (hnew : ∀ id : StructId, id.index < c.structs.size →
    (c.struct id).symbol ≠ symbol) : (c.newStruct decl scope symbol display isInstance).Apart :=
  withMethods_induction (h.withStruct hnew) fun _ hd _ _ => hd.withMethod rfl

end

/-! ## Entities -/

/-- The symbol of an entity that is declared at a path. -/
def symbolAt (path : String) : Option InstanceNames → String
  | some names => behindDot path (toString names.number)
  | none => path

/-- The name that messages show for it. -/
def displayAt (path : String) : Option InstanceNames → String
  | some names => names.display
  | none => path

/-- The path of a declaration in a scope. -/
def entityPath (c : Context) (kind : Surface.ItemKind) (scope : Scope) : String :=
  pathOf (c.package scope.package).name kind.name.name

section

variable {scope : Scope} (names : Option InstanceNames)

theorem declareEntity_function (c : Context) (decl : Surface.FnDecl) :
    Check.declareEntity (.function decl) scope names c = .ok (some (.global ⟨c.globals.size⟩))
      (c.withGlobal (c.functionOf decl scope none
        (if decl.body.isNone then decl.name.name
          else symbolAt (c.entityPath (.function decl) scope) names)
        (displayAt (c.entityPath (.function decl) scope) names) names.isSome)) := by
  cases names <;> rfl

theorem declareEntity_struct (c : Context) (decl : Surface.StructDecl) :
    Check.declareEntity (.struct decl) scope names c = .ok (some (.struct ⟨c.structs.size⟩))
      (c.newStruct decl scope (symbolAt (c.entityPath (.struct decl) scope) names)
        (displayAt (c.entityPath (.struct decl) scope) names) names.isSome) := by
  cases names <;>
    exact Run.map_eq_ok.mpr ⟨_, c.declareStruct_apply decl scope _ _ _, rfl⟩

theorem declareEntity_global (c : Context) (decl : Surface.VarDecl) :
    Check.declareEntity (.global decl) scope names c = .ok (some (.global ⟨c.globals.size⟩))
      (c.withGlobal (c.variableOf decl scope (symbolAt (c.entityPath (.global decl) scope) names)
        (displayAt (c.entityPath (.global decl) scope) names) names.isSome)) := by
  cases names <;> rfl

theorem declareEntity_typeAlias (c : Context) (name : Surface.Ident) (target : Surface.TypeExpr) :
    Check.declareEntity (.typeAlias name target) scope names c =
      .ok (some (.typeAlias ⟨c.aliases.size⟩)) (c.withAlias (aliasOf name target scope
        (displayAt (c.entityPath (.typeAlias name target) scope) names))) := by
  cases names <;> rfl

theorem declareEntity_macroDecl (c : Context) (decl : Surface.MacroDecl) :
    Check.declareEntity (.macroDecl decl) scope names c = (do
      Check.declareMacro decl scope (displayAt (c.entityPath (.macroDecl decl) scope) names)
      return none : Check (Option Member)) c := by
  cases names <;> rfl

end

/-- The context with one more macro of a package. -/
def withMacro (c : Context) (package : PackageId) (name : String) (m : MacroDef) : Context :=
  { c with macros := c.macros.push m }.modifyPackage package fun p =>
    { p with macros := p.macros ++ [(name, MacroId.mk c.macros.size)] }

/-- What is kept wherever an entity is added, a declaration keeps. -/
theorem preserves_declareEntity_of {P : Context → Prop} {kind : Surface.ItemKind}
    {names : Option InstanceNames}
    (function : ∀ c decl scope symbol display, kind = .function decl → P c →
      P (c.withGlobal (c.functionOf decl scope none symbol display names.isSome)))
    (struct : ∀ c decl scope symbol display, kind = .struct decl → P c →
      P (c.newStruct decl scope symbol display names.isSome))
    (global : ∀ c decl scope symbol display, P c →
      P (c.withGlobal (c.variableOf decl scope symbol display names.isSome)))
    (typeAlias : ∀ c a, P c → P (c.withAlias a)) {scope : Scope}
    (macroDef : ∀ c m, kind = .macroDecl m.decl →
      (c.package scope.package).macro? m.decl.name.name = none →
        m.fullName = displayAt (c.entityPath kind scope) names → m.returns = Shape.void.plain → P c →
          P (c.withMacro scope.package m.decl.name.name m)) :
    (Check.declareEntity kind scope names).Preserves P := by
  intro c d hd hc
  cases kind with
  | function decl =>
    rw [Run.Ends, declareEntity_function] at hd
    rcases hd with ⟨_, hd⟩ | ⟨_, hd⟩ <;> cases hd
    exact function _ _ _ _ _ rfl hc
  | struct decl =>
    rw [Run.Ends, declareEntity_struct] at hd
    rcases hd with ⟨_, hd⟩ | ⟨_, hd⟩ <;> cases hd
    exact struct _ _ _ _ _ rfl hc
  | global decl =>
    rw [Run.Ends, declareEntity_global] at hd
    rcases hd with ⟨_, hd⟩ | ⟨_, hd⟩ <;> cases hd
    exact global _ _ _ _ _ hc
  | typeAlias name target =>
    rw [Run.Ends, declareEntity_typeAlias] at hd
    rcases hd with ⟨_, hd⟩ | ⟨_, hd⟩ <;> cases hd
    exact typeAlias _ _ hc
  | macroDecl decl =>
    rw [Run.Ends, declareEntity_macroDecl] at hd
    have hkept {e : Context} (he : (Check.declareMacro decl scope
        (displayAt (c.entityPath (.macroDecl decl) scope) names)).Ends c e) : P e := by
      replace he := Run.ends_get_bind he
      split at he
      · exact Run.preserves_fail _ he hc
      · obtain rfl := Run.ends_modify he
        exact macroDef c _ rfl ‹_› rfl rfl hc
    obtain hend | ⟨_, e, hmacro, hreturn⟩ := Run.ends_bind hd
    · exact hkept hend
    · exact Run.preserves_pure _ hreturn (hkept (Run.ends_of_ok hmacro))

theorem Labelled.entityPath_noDot (h : c.Labelled bound) {kind : Surface.ItemKind} (scope : Scope)
    (hname : IsWord kind.name.name) : '.' ∉ (c.entityPath kind scope).toList :=
  pathOf_noDot (h.packages _) hname

theorem Labelled.numbered_entityPath (h : c.Labelled bound) {kind : Surface.ItemKind} (scope : Scope)
    (hname : IsWord kind.name.name) : Numbered bound (c.entityPath kind scope) :=
  .plain (h.entityPath_noDot scope hname) (not_isWord_pathOf _ _)

theorem Labelled.mono {bound' : Nat} (h : c.Labelled bound) (hbound : bound ≤ bound') :
    c.Labelled bound' :=
  { h with
    structs := fun id => (h.structs id).mono hbound
    globals := fun id hid howner => (h.globals id hid howner).mono hbound }

/-- What a template makes is declared under a number that was not given yet. -/
structure Makes (c : Context) (number : Nat) (d : Context) : Prop where
  adds : c.Adds d
  closed : d.Closed
  labelled : d.Labelled number
  apart : d.Apart

/-- The struct or global that a template makes is the last one that is declared. -/
theorem makes_declareEntity (hclosed : c.Closed) (hlabelled : c.Labelled bound) (hapart : c.Apart)
    {kind : Surface.ItemKind} (hkind : kind.Worded) {scope : Scope} (hscope : c.Knows scope)
    {names : InstanceNames} (hnumber : bound < names.number) {made : Option Member}
    (h : Check.declareEntity kind scope (some names) c = .ok made d) :
    (∀ id, made = some (.struct id) → c.Makes names.number d ∧ id = ⟨c.structs.size⟩ ∧
      d.structs.size = c.structs.size + 1 ∧ (d.struct id).state = .declared) ∧
    ∀ id, made = some (.global id) → c.Makes names.number d ∧ d.structs.size = c.structs.size := by
  have hmore := hlabelled.mono hnumber.le
  cases kind with
  | function decl =>
    rw [declareEntity_function] at h
    cases h
    have hpath : '.' ∉ (c.entityPath (.function decl) scope).toList := hlabelled.entityPath_noDot scope hkind
    have hsymbol (hbody : ¬decl.body.isNone) :
        (if decl.body.isNone then decl.name.name
          else symbolAt (c.entityPath (.function decl) scope) (some names)) =
          behindDot (c.entityPath (.function decl) scope) (toString names.number) := if_neg hbody
    refine ⟨fun id hid => by (cases hid), fun id _ => ⟨⟨(Adds.refl c).withGlobal _,
      hclosed.withGlobal ?_, hmore.withGlobal rfl (fun hbody => ?_) fun hexternal => ?_, ?_⟩, rfl⟩⟩
    · exact knows_globalDef.mpr ⟨knows_none, hscope, knows_none⟩
    · exact (hsymbol hbody).symm ▸ .made hpath le_rfl
    · exact (congrArg IsWord (if_pos hexternal)).mpr hkind
    · refine hapart.withGlobal rfl fun hbody id hid howner hsame => ?_
      exact (hlabelled.globals id hid howner).ne_made _ hnumber (hsame.trans (hsymbol hbody))
  | struct decl =>
    rw [declareEntity_struct] at h
    cases h
    have hpath : '.' ∉ (c.entityPath (.struct decl) scope).toList := hlabelled.entityPath_noDot scope hkind.1
    refine ⟨fun id hid => ?_, fun id hid => by (cases hid)⟩
    cases hid
    have hopened : c.Opened (behindDot (c.entityPath (.struct decl) scope) (toString names.number))
        (c.newStruct decl scope (behindDot (c.entityPath (.struct decl) scope) (toString names.number))
          names.display true) := opened_newStruct
    exact ⟨⟨adds_newStruct, hclosed.newStruct hscope, hmore.newStruct (.made hpath le_rfl) hkind.2,
      hapart.newStruct fun id _ => (hlabelled.structs id).ne_made _ hnumber⟩, rfl, hopened.size,
      hopened.state⟩
  | global decl =>
    rw [declareEntity_global] at h
    cases h
    have hpath : '.' ∉ (c.entityPath (.global decl) scope).toList := hlabelled.entityPath_noDot scope hkind
    refine ⟨fun id hid => by (cases hid), fun id _ => ⟨⟨(Adds.refl c).withGlobal _,
      hclosed.withGlobal ?_, hmore.withGlobal rfl (fun _ => .made hpath le_rfl) nofun, ?_⟩, rfl⟩⟩
    · exact knows_globalDef.mpr ⟨knows_storageKind, hscope, knows_none⟩
    · exact hapart.withGlobal rfl fun _ id hid howner => (hlabelled.globals id hid howner).ne_made _ hnumber
  | typeAlias name target =>
    rw [declareEntity_typeAlias] at h
    cases h
    exact ⟨fun id hid => by (cases hid), fun id hid => by (cases hid)⟩
  | macroDecl decl =>
    rw [declareEntity_macroDecl] at h
    obtain ⟨_, _, -, hreturn⟩ := Run.bind_eq_ok.mp h
    cases hreturn
    exact ⟨fun id hid => by (cases hid), fun id hid => by (cases hid)⟩

end Context

end OwnLang
