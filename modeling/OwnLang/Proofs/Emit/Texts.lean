import Mathlib
import OwnLang.Compile
import OwnLang.Proofs.Check.Receivers
import OwnLang.Proofs.Core.Coerce
import OwnLang.Proofs.Emit.Linkage

/-!
# Texts of pointers

A pointer to a struct is printed as the text that the struct's function `_string` makes of it. Which
functions that may be is decided by their types alone (`Emit.stringMethod?_eq_some_iff`), and says less
than a call that is written does. A constant method is called where `p._string()` could be written as well.
A method that is not constant is called on a constant pointer too, where the written call is refused, and a
static function is called with a pointer for its one parameter, where the written call has no argument for
it (`Session.written_stringCall`).
-/

namespace OwnLang

/-- The type is that of pointers to a struct, which may not be changed through them if `constant`. -/
def Ty.PointsAt (t : Ty) (id : StructId) (constant : Bool) : Prop :=
  ∃ target, t.shape.pointee? = some (target, constant) ∧ target.shape.struct? = some id

theorem Ty.PointsAt.unique {t : Ty} {id id' : StructId} {constant constant' : Bool}
    (h : t.PointsAt id constant) (h' : t.PointsAt id' constant') : id = id' ∧ constant = constant' := by
  obtain ⟨target, hpointee, hstruct⟩ := h
  obtain ⟨target', hpointee', hstruct'⟩ := h'
  obtain ⟨rfl, hconstant⟩ := Prod.mk.inj (Option.some.inj (hpointee.symm.trans hpointee'))
  exact ⟨Option.some.inj (hstruct.symm.trans hstruct'), hconstant⟩

/-! ## Receivers -/

theorem Ty.same_of_struct? {s t : Ty} {id : StructId} (hs : s.shape.struct? = some id)
    (ht : t.shape.struct? = some id) : s.same t = true := by
  rw [Ty.same_shape]
  cases hshape : s.shape <;> rw [hshape] at hs <;> cases hs
  cases hshape' : t.shape <;> rw [hshape'] at ht <;> cases ht
  exact beq_self_eq_true id

/-- A pointer is converted to a shared one to the same struct unless that would make it mutable. -/
theorem Core.Expr.coerce_pointsAt_iff {value : Core.Expr} {t : Ty} {id : StructId} {constant seen : Bool}
    (hvalue : value.type.PointsAt id constant) (ht : t.PointsAt id seen) (hshared : t.shape.isOwner = false) :
    (∃ out, value.coerce t = .ok out) ↔ (constant = true → seen = true) := by
  obtain ⟨target, hpointee, hstruct⟩ := hvalue
  obtain ⟨target', hpointee', hstruct'⟩ := ht
  constructor
  · rintro ⟨out, hout⟩
    rcases converts_of_coerce hout with hsame | hrule
    · rw [Ty.same_shape] at hsame
      obtain ⟨u, hu, -⟩ := Shape.pointee?_same hsame hpointee
      cases hpointee'.symm.trans hu
      exact fun hconstant => hconstant
    · generalize value.type.shape = shape, t.shape = shape' at hpointee hpointee' hrule
      cases hrule with
      | int | view => cases hpointee
      | pointer ha hb _ hconstant _ =>
        cases hpointee.symm.trans ha
        cases hpointee'.symm.trans hb
        exact hconstant
  · intro hconstant
    by_cases hsame : value.type.same t = true
    · exact ⟨value, coerce_of_same hsame⟩
    · have halike := Shape.pointsAlike_iff.mpr (.inl (Ty.same_of_struct? hstruct hstruct'))
      have hpointer : value.type.shape.convertsPointer t.shape = true := Shape.convertsPointer_iff.mpr
        ⟨target, constant, target', seen, hpointee, hpointee', by simp [hshared], hconstant, halike⟩
      unfold coerce
      rw [if_neg hsame, Shape.between?_eq (.inl (Shape.width?_of_pointee hpointee)), hpointer, Bool.true_or,
        if_pos rfl]
      exact ⟨_, rfl⟩

namespace Check

variable {ask : Asker} {c d : Context} {scope : Scope} {id : StructId} {value : Core.Expr} {constant : Bool}

theorem pointsAt_receiverOfValue {base : Core.Expr} {span : Span}
    (h : receiverOfValue base span c = .ok (id, .pointer value constant) d) :
    value.type.PointsAt id constant := by
  replace h : Gives _ c (id, Receiver.pointer value constant) d := h
  unfold receiverOfValue at h
  split at h
  · cases h
  · rename_i target constant _ hpointee
    split at h
    · rename_i hstruct
      cases h
      exact ⟨target, hpointee, hstruct⟩
    · cases h
  · cases h

/-- The pointer that a method is called on points at the struct whose method it is. -/
theorem pointsAt_receiverOf {base : Surface.Expr}
    (h : receiverOf ask base scope c = .ok (id, .pointer value constant) d) :
    value.type.PointsAt id constant := by
  unfold receiverOf at h
  obtain ⟨denoted, c₁, -, hrest⟩ := Run.bind_eq_ok.mp h
  cases denoted with
  | value value => exact pointsAt_receiverOfValue hrest
  | place place =>
    replace hrest : Gives _ c₁ (id, Receiver.pointer value constant) d := hrest
    dsimp only at hrest
    split at hrest
    · rename_i hstruct
      cases hrest
      exact ⟨place.type, rfl, hstruct⟩
    · obtain ⟨read, c₂, -, hvalue⟩ := Run.bind_eq_ok.mp hrest
      exact pointsAt_receiverOfValue hvalue

end Check

/-! ## The function that makes a text -/

/-- A function of a struct makes a text of the one argument that it takes. A method takes its receiver, and
no parameter is written; another function has the one parameter that is written. -/
structure Context.MakesText (c : Context) (id : StructId) (m : GlobalId) (decl : Surface.FnDecl)
    (type param returns : Ty) : Prop where
  member : (c.struct id).member? "_string" = some m
  declared : (c.global m).kind = .function decl (some id)
  typed : c.typeOf? m = some type
  signature : type.shape = .func [param] decl.variadic returns
  text : returns.shape.isString = true
  receiver : decl.kind.isMethod = true →
    decl.params = [] ∧ param.PointsAt id (decl.kind == .constMethod) ∧ param.shape.isOwner = false
  written : decl.kind.isMethod = false → decl.params.length = 1

theorem Context.MakesText.fnKind {c : Context} {id : StructId} {m : GlobalId} {decl : Surface.FnDecl}
    {type param returns : Ty} (h : c.MakesText id m decl type param returns) :
    (c.global m).fnKind? = some decl.kind := by
  simp [Global.fnKind?, Global.fnDecl?, h.declared]

/-- A pointer is printed by the function `_string` of its struct, if that has one parameter and returns a
text. -/
theorem Emit.stringMethod?_eq_some_iff {c : Context} {t : Ty} {m : GlobalId} :
    stringMethod? c t = some m ↔ ∃ id constant param variadic returns, t.PointsAt id constant ∧
      (c.struct id).member? "_string" = some m ∧
        c.functionType? m = some ([param], variadic, returns) ∧ returns.shape.isString = true := by
  constructor
  · intro h
    unfold stringMethod? at h
    obtain ⟨⟨target, constant⟩, hpointee, h⟩ := Option.bind_eq_some_iff.mp h
    obtain ⟨id, hstruct, h⟩ := Option.bind_eq_some_iff.mp h
    obtain ⟨m', hmember, h⟩ := Option.bind_eq_some_iff.mp h
    obtain ⟨⟨params, variadic, returns⟩, htype, h⟩ := Option.bind_eq_some_iff.mp h
    obtain ⟨hfits, hm⟩ := Option.ite_none_right_eq_some.mp h
    obtain rfl := Option.some.inj hm
    obtain ⟨htext, hlength⟩ := Bool.and_eq_true_iff.mp hfits
    obtain ⟨param, rfl⟩ := List.length_eq_one_iff.mp (eq_of_beq hlength)
    exact ⟨id, constant, param, variadic, returns, ⟨target, hpointee, hstruct⟩, hmember, htype, htext⟩
  · rintro ⟨id, constant, param, variadic, returns, ⟨target, hpointee, hstruct⟩, hmember, htype, htext⟩
    simp [stringMethod?, hpointee, hstruct, hmember, htype, htext]

namespace Session

variable {c : Context} {t : Ty} {m : GlobalId}

/-- What is called on a pointer that is printed was declared in the struct that is pointed at. -/
theorem Moment.makesText (hc : Moment c) (h : Emit.stringMethod? c t = some m) :
    ∃ id constant decl type param returns, t.PointsAt id constant ∧
      c.MakesText id m decl type param returns := by
  obtain ⟨id, constant, param, variadic, returns, hpoints, hmember, hfunction, htext⟩ :=
    Emit.stringMethod?_eq_some_iff.mp h
  obtain ⟨decl, hkind⟩ := hc.owns hmember
  obtain ⟨name, htype⟩ := Context.functionType?_eq_some hfunction
  obtain ⟨hcomplete, hsignature⟩ := hc.signed m
  obtain ⟨display, params, returns', hshape, hlength⟩ := hsignature _ _ _ htype hkind
  obtain ⟨hparams, hvariadic, rfl⟩ := Shape.func.inj hshape
  refine ⟨id, constant, decl, _, param, returns, hpoints, hmember, hkind,
    Context.typeOf?_eq_some.mpr ⟨hcomplete _ htype, htype⟩, by rw [← hvariadic]; rfl, htext, fun hmethod => ?_,
    fun hstatic => ?_⟩
  · simp only [Surface.FnDecl.receiver, hmethod, if_true] at hparams
    obtain ⟨rfl, hnone⟩ := List.cons.inj hparams
    obtain rfl : params = [] := hnone.symm
    exact ⟨List.length_eq_zero_iff.mp hlength.symm, ⟨_, rfl, rfl⟩, rfl⟩
  · simp only [Surface.FnDecl.receiver, hstatic] at hparams
    rw [← hlength]
    exact congrArg List.length hparams.symm

end Session

/-! ## Calls that are written -/

namespace Check

variable {ask : Asker} {c d : Context} {scope : Scope} {id : StructId} {m : GlobalId}
  {decl : Surface.FnDecl} {type param returns : Ty} {name : Surface.Ident} {span : Span}

/-- What was found out of an entity is the answer from then on. -/
theorem step_layout (hcomplete : (c.struct id).state = .complete) :
    step ask (.layout id span) c = .ok ⟨⟩ c := by
  show resolveStruct ask id span c = _
  unfold resolveStruct
  rw [Run.bind_apply, Run.get_apply]
  dsimp only
  rw [hcomplete]
  rfl

theorem step_global (htype : c.typeOf? m = some type) :
    step ask (.global m span) c = .ok type c := by
  obtain ⟨hstate, htype⟩ := Context.typeOf?_eq_some.mp htype
  show resolveGlobal ask m span c = _
  unfold resolveGlobal
  rw [Run.bind_apply, Run.get_apply]
  dsimp only
  rw [hstate, htype]
  rfl

/-- A name that a function of a complete struct has is that of no field. -/
theorem structMember_function (hregular : (c.struct id).Regular) (hcomplete : (c.struct id).state = .complete)
    (hmember : (c.struct id).member? name.name = some m) :
    structMember (step ask) id name c =
      .ok (if (c.global m).fnKind? = some .static then .static m else .method m) c := by
  have hfield : (c.struct id).fieldIndex? name.name = none := by
    have hnodup := hregular.distinct hcomplete
    obtain ⟨before, after, hmembers, -⟩ := List.lookup_eq_some_iff.mp hmember
    refine List.findIdx?_eq_none_iff.mpr fun field hfield => beq_eq_false_iff_ne.mpr fun hsame => ?_
    refine (List.nodup_append.mp hnodup).2.2 _ (List.mem_map_of_mem hfield) name.name ?_ hsame
    rw [hmembers]
    simp
  unfold structMember
  rw [Run.bind_apply, step_layout hcomplete]
  dsimp only
  rw [Run.bind_apply, Run.get_apply]
  dsimp only
  rw [hfield, hmember]
  rfl

/-- A function with one parameter is not called without an argument. -/
theorem callOf_nothing {callee : Core.Expr} {variadic : Bool}
    (hcallee : callee.type.shape = .func [param] variadic returns) :
    callOf ask callee [] [] span scope c = .error ⟨.unexpectedArguments 1 0, span, none⟩ c := by
  unfold callOf
  rw [hcallee]
  rfl

/-- The receiver may be the one argument. -/
theorem callOf_receiver {callee this : Core.Expr} {variadic : Bool}
    (hcallee : callee.type.shape = .func [param] variadic returns) :
    callOf ask callee [this] [] span scope c = .ok (.computed (.call callee [this]) returns span) c := by
  unfold callOf
  rw [hcallee]
  cases variadic <;> rfl

section

variable {base : Surface.Expr} {value this : Core.Expr} {constant : Bool}
  (hm : d.MakesText id m decl type param returns)

include hm

/-- A method that is not constant has no constant receiver. -/
theorem receiverArgument_constant (hmethod : decl.kind = .method) :
    receiverArgument (step ask) m (.pointer value true) base name d =
      .error ⟨.constReceiver (d.global m).display, name.span, none⟩ d := by
  have hrefused : (true && (d.global m).fnKind? = some .method) = true := by simp [hm.fnKind, hmethod]
  unfold receiverArgument
  dsimp only
  rw [Run.bind_apply, Run.get_apply]
  dsimp only
  rw [if_pos hrefused]
  rfl

theorem receiverArgument_eq_ok (hconstant : constant = true → decl.kind ≠ .method)
    (hthis : value.coerce param = .ok this) :
    receiverArgument (step ask) m (.pointer value constant) base name d = .ok (this, type) d := by
  have hallowed : ¬(constant && (d.global m).fnKind? = some .method) = true := by
    simpa [hm.fnKind] using hconstant
  unfold receiverArgument
  dsimp only
  rw [Run.bind_apply, Run.get_apply]
  dsimp only
  rw [if_neg hallowed, Run.bind_apply, step_global hm.typed]
  dsimp only
  rw [hm.signature]
  dsimp only [List.head?_cons]
  rw [hthis]
  rfl

variable (hregular : (d.struct id).Regular) (hcomplete : (d.struct id).state = .complete)
  (hname : name.name = "_string")

include hregular hcomplete hname

theorem structMember_makesText : structMember (step ask) id name d =
    .ok (if decl.kind = .static then .static m else .method m) d := by
  rw [structMember_function hregular hcomplete (hname ▸ hm.member), hm.fnKind]
  simp only [Option.some.injEq]

variable (hbase : receiverOf (step ask) base scope c = .ok (id, .pointer value constant) d)

include hbase

/-- A function of a struct that makes texts is called as what it was declared as. -/
theorem memberCall_makesText : memberCall (step ask) base name [] span scope c = (if decl.kind = .static then do
      let t ← step ask (.global m name.span)
      callOf (step ask) (.computed (.function m) t name.span) [] [] span scope
    else do
      let (this, t) ← receiverArgument (step ask) m (.pointer value constant) base name
      callOf (step ask) (.computed (.function m) t name.span) [this] [] span scope : Check Core.Expr) d := by
  unfold memberCall
  rw [Run.bind_apply, hbase]
  dsimp only
  rw [Run.bind_apply, structMember_makesText hm hregular hcomplete hname]
  dsimp only
  split <;> rfl

/-- A static function has no receiver, and the argument that it takes is missing. -/
theorem memberCall_static (hstatic : decl.kind = .static) :
    memberCall (step ask) base name [] span scope c = .error ⟨.unexpectedArguments 1 0, span, none⟩ d := by
  rw [memberCall_makesText hm hregular hcomplete hname hbase, if_pos hstatic, Run.bind_apply,
    step_global hm.typed]
  exact callOf_nothing hm.signature

/-- A method that is not constant is refused on a constant pointer. -/
theorem memberCall_constant (hmethod : decl.kind = .method) (hconstant : constant = true) :
    memberCall (step ask) base name [] span scope c =
      .error ⟨.constReceiver (d.global m).display, name.span, none⟩ d := by
  rw [memberCall_makesText hm hregular hcomplete hname hbase, if_neg (by simp [hmethod]), Run.bind_apply,
    hconstant, receiverArgument_constant hm hmethod]

/-- A method is called on the pointer, if that is converted to its receiver. -/
theorem memberCall_method (hmethod : decl.kind.isMethod = true)
    (hconstant : constant = true → decl.kind ≠ .method) (hthis : value.coerce param = .ok this) :
    memberCall (step ask) base name [] span scope c =
      .ok (.computed (.call (.computed (.function m) type name.span) [this]) returns span) d := by
  have hstatic : decl.kind ≠ .static := fun h => by
    rw [h] at hmethod
    cases hmethod
  rw [memberCall_makesText hm hregular hcomplete hname hbase, if_neg hstatic, Run.bind_apply,
    receiverArgument_eq_ok hm hconstant hthis]
  exact callOf_receiver hm.signature

end

end Check

namespace Session

/-- Where a pointer is printed by a function of its struct, the written call of that function without an
argument does what it was declared as: on a method it is the same call, unless the method is not constant
and the pointer is, and of a static function it is refused. -/
theorem written_stringCall {c d : Context} {base : Surface.Expr} {scope : Scope} {id : StructId}
    {value : Core.Expr} {constant : Bool} {m : GlobalId} {name : Surface.Ident} (span : Span) (hd : Moment d)
    (hbase : Check.receiverOf Check.answer base scope c = .ok (id, .pointer value constant) d)
    (hcomplete : (d.struct id).state = .complete) (hname : name.name = "_string")
    (h : Emit.stringMethod? d value.type = some m) :
    ∃ decl type param returns, d.MakesText id m decl type param returns ∧
      (decl.kind.isMethod = true → (constant = true → decl.kind = .constMethod) →
        ∃ this, value.coerce param = .ok this ∧ Check.memberCall Check.answer base name [] span scope c =
          .ok (.computed (.call (.computed (.function m) type name.span) [this]) returns span) d) ∧
      (decl.kind = .method → constant = true → Check.memberCall Check.answer base name [] span scope c =
        .error ⟨.constReceiver (d.global m).display, name.span, none⟩ d) ∧
      (decl.kind = .static → Check.memberCall Check.answer base name [] span scope c =
        .error ⟨.unexpectedArguments 1 0, span, none⟩ d) := by
  obtain ⟨n, hn⟩ : ∃ n, Check.nestingBound = n + 1 := ⟨99999, rfl⟩
  have hanswer : Check.answer = Check.step (Check.answerTo n) := by
    funext q
    unfold Check.answer
    rw [hn]
    rfl
  rw [hanswer] at hbase ⊢
  obtain ⟨id', constant', decl, type, param, returns, hpoints, hm⟩ := hd.makesText h
  have hvalue := Check.pointsAt_receiverOf hbase
  obtain ⟨rfl, rfl⟩ := hvalue.unique hpoints
  have hregular := hd.regular.structs id
  refine ⟨decl, type, param, returns, hm, fun hmethod hconstant => ?_,
    Check.memberCall_constant hm hregular hcomplete hname hbase,
    Check.memberCall_static hm hregular hcomplete hname hbase⟩
  obtain ⟨-, hparam, hshared⟩ := hm.receiver hmethod
  obtain ⟨this, hthis⟩ := (Core.Expr.coerce_pointsAt_iff hvalue hparam hshared).mpr fun h => by
    rw [hconstant h]
    rfl
  exact ⟨this, hthis, Check.memberCall_method hm hregular hcomplete hname hbase hmethod
    (fun h => by rw [hconstant h]; simp) hthis⟩

/-- A function that takes a constant pointer to a struct whose method `_string` is not constant. -/
def constantSources (statement : String) : List SourceFile :=
  [⟨"main.own", String.join
    [ "struct S \x7b var a: i32; fn _string(): const i8[] \x7b a = 1; return \"s\"; \x7d \x7d ",
      "fn f(s: const *S) \x7b ", statement, " \x7d" ]⟩]

/-- The pointer is printed, but the call that is written is refused. -/
example :
    (checkProgram { requireEntry := false } (constantSources "print!(\"%\", s);") >>= emitModule).isOk = true ∧
      (checkProgram { requireEntry := false } (constantSources "s._string();")).isOk = false := by
  rw [checkProgram_eq, checkProgram_eq, constantSources, constantSources, SourceFile.mapM_parse_join,
    SourceFile.mapM_parse_join, SourceFile.prelude, Prelude.text, SourceFile.parse_join]
  decide +kernel

end Session

end OwnLang
