import Mathlib
import OwnLang.Proofs.Check.Stable

/-!
# What declaring entities keeps

A declaration adds an entity of which only the name is known (`Additive`). An instance of a template
is a declaration and an entry into the template's record, so what declarations keep, instances keep
as well.
-/

namespace OwnLang.Check

/-- Properties of contexts that new entities do not touch. -/
structure Additive (P : Context → Prop) : Prop where
  global : ∀ c g pending, g.state = .declared → g.value = none → P c →
    P { c with globals := c.globals.push g, pending }
  struct : ∀ c d, d.state = .declared → d.fields = [] → P c →
    P { c with structs := c.structs.push d }
  member : ∀ c id members, P c →
    P (c.modifyStruct id fun d => { d with members := d.members ++ members })
  typeAlias : ∀ c a, a.state = .declared → P c → P { c with aliases := c.aliases.push a }
  macroDef : ∀ c m packages, m.state = .declared → P c →
    P { c with macros := c.macros.push m, packages }

variable {ask : Asker} {P : Context → Prop} (h : Additive P)

theorem preserves_depthOf (isInstance : Bool) : (depthOf isInstance).Preserves P :=
  Run.preserves_get.bind fun _ => Run.preserves_pure _

include h

theorem preserves_declareFunction (decl : Surface.FnDecl) (scope : Scope) (owner : Option StructId)
    (symbol display : String) (isInstance : Bool) :
    (declareFunction decl scope owner symbol display isInstance).Preserves P := by
  unfold declareFunction
  refine (preserves_depthOf _).bind fun depth => Run.preserves_get.bind fun c =>
    (Run.preserves_modify fun d hd => ?_).bind fun _ => Run.preserves_pure _
  exact h.global d _ _ rfl rfl hd

theorem preserves_declareVariable (decl : Surface.VarDecl) (scope : Scope)
    (symbol display : String) (isInstance : Bool) :
    (declareVariable decl scope symbol display isInstance).Preserves P := by
  unfold declareVariable
  refine (preserves_depthOf _).bind fun depth => Run.preserves_get.bind fun c =>
    (Run.preserves_modify fun d hd => ?_).bind fun _ => Run.preserves_pure _
  exact h.global d _ d.pending rfl rfl hd

theorem preserves_declareMethods (decls : List Surface.FnDecl) (scope : Scope) (id : StructId)
    (symbol display : String) (isInstance : Bool) :
    (forIn decls PUnit.unit fun method (_ : PUnit) => do
        let function ← declareFunction method scope (some id) (symbol ++ "." ++ method.name.name)
          (display ++ "::" ++ method.name.name) isInstance
        modify fun c => c.modifyStruct id fun d =>
          { d with members := d.members ++ [(method.name.name, function)] }
        pure (ForInStep.yield PUnit.unit) : Check PUnit).Preserves P := by
  refine Run.preserves_forIn (fun method _ => ?_) _ _
  exact (preserves_declareFunction h _ _ _ _ _ _).bind fun _ =>
    (Run.preserves_modify fun d hd => h.member d _ _ hd).bind fun _ => Run.preserves_pure _

theorem preserves_declareStruct (decl : Surface.StructDecl) (scope : Scope)
    (symbol display : String) (isInstance : Bool) :
    (declareStruct decl scope symbol display isInstance).Preserves P := by
  unfold declareStruct
  refine Run.preserves_get.bind fun c => (Run.preserves_modify fun d hd => ?_).bind fun _ =>
    (preserves_declareMethods h _ _ _ _ _ _).bind fun _ => Run.preserves_pure _
  exact h.struct d _ rfl rfl hd

theorem preserves_declareAlias (name : Surface.Ident) (target : Surface.TypeExpr) (scope : Scope)
    (display : String) : (declareAlias name target scope display).Preserves P := by
  unfold declareAlias
  refine Run.preserves_get.bind fun c => (Run.preserves_modify fun d hd => ?_).bind fun _ =>
    Run.preserves_pure _
  exact h.typeAlias d _ rfl hd

theorem preserves_declareMacro (decl : Surface.MacroDecl) (scope : Scope) (fullName : String) :
    (declareMacro decl scope fullName).Preserves P := by
  unfold declareMacro
  refine Run.preserves_get.bind fun c => ?_
  split
  · exact Run.preserves_fail _
  · exact Run.preserves_modify fun d hd => h.macroDef d _ _ rfl hd

theorem preserves_declareEntity (kind : Surface.ItemKind) (scope : Scope)
    (names : Option InstanceNames) : (declareEntity kind scope names).Preserves P := by
  unfold declareEntity
  refine Run.preserves_get.bind fun c => ?_
  dsimp only
  split
  · exact (preserves_declareFunction h _ _ _ _ _ _).map _
  · exact (preserves_declareStruct h _ _ _ _ _).map _
  · exact (preserves_declareVariable h _ _ _ _ _).map _
  · exact (preserves_declareAlias h _ _ _ _).map _
  · exact (preserves_declareMacro h _ _ _).bind fun _ => Run.preserves_pure _

omit h in
theorem preserves_makeInstance (ha : ∀ q : Query, q.isExpr → (ask q).Preserves P)
    (hd : ∀ {α : Type} {work : Check α}, work.Preserves P → (detached work).Preserves P)
    (hr : ∀ c id made, P c → P (c.addInstance id made)) (id : TemplateId) {t : TemplateDef}
    (path : String) (args : List Ty) (number : Nat)
    (ht : ∀ scope, (declareEntity t.item.kind scope (some ⟨number, instancePath path args⟩)).Preserves P)
    (span : Span) : (makeInstance ask id t path args number span).Preserves P := by
  unfold makeInstance
  refine (ht _).bind fun member => ?_
  extract_lets +onlyGivenNames record
  have hrecord (entity) : (record entity).Preserves P := by
    refine (Run.preserves_modify fun c hc => hr c id _ hc).bind fun _ =>
      (hd ?_).bind fun _ => Run.preserves_pure _
    split
    · exact ha _ rfl
    · exact (ha _ rfl).bind fun _ => Run.preserves_pure _
  split
  · exact (Run.preserves_pure _).bind hrecord
  · exact (Run.preserves_pure _).bind hrecord
  · exact (Run.preserves_reject _ _).bind hrecord

omit h in
/-- What the declarations of templates keep, their instances keep. -/
theorem preserves_instance
    (ht : ∀ c id scope number path args, P c →
      (declareEntity (c.template id).item.kind scope (some ⟨number, instancePath path args⟩)).Preserves P)
    (ha : ∀ q : Query, q.isExpr → (ask q).Preserves P)
    (hd : ∀ {α : Type} {work : Check α}, work.Preserves P → (detached work).Preserves P)
    (hr : ∀ c id made, P c → P (c.addInstance id made))
    (hn : ∀ c instanceCount inProgress, P c → P { c with instanceCount, inProgress })
    (id : TemplateId) (args : List Ty) (span : Span) :
    (instantiate ask id args span).Preserves P := by
  unfold instantiate
  refine Run.preserves_get_bind fun c d hend hc => ?_
  dsimp only at hend
  split at hend
  · exact Run.preserves_reject _ _ hend hc
  · split at hend
    · exact Run.preserves_pure _ hend hc
    · split at hend
      · exact Run.preserves_reject _ _ hend hc
      · refine Run.Preserves.andFinally ?_ (fun d hd => ?_) (Run.ends_set_bind hend) (hn c _ _ hc)
        · exact preserves_makeInstance ha hd hr _ _ _ _ (fun scope => ht c id scope _ _ _ hc) _
        · exact hn d d.instanceCount _ hd

theorem preserves_instantiate (ha : ∀ q : Query, q.isExpr → (ask q).Preserves P)
    (hd : ∀ {α : Type} {work : Check α}, work.Preserves P → (detached work).Preserves P)
    (hr : ∀ c id made, P c → P (c.addInstance id made))
    (hn : ∀ c instanceCount inProgress, P c → P { c with instanceCount, inProgress })
    (id : TemplateId) (args : List Ty) (span : Span) :
    (instantiate ask id args span).Preserves P :=
  preserves_instance (fun _ _ scope _ _ _ _ => preserves_declareEntity h _ scope _) ha hd hr hn _ _ _

end OwnLang.Check
