import Mathlib
import OwnLang.Proofs.Check.Containment
import OwnLang.Proofs.Check.Regular
import OwnLang.Proofs.Emit.WellFormed

/-!
# Initializers of structs

The values of an initializer come in the order in which they are written, and are put at the positions
of their fields. Since the fields of a complete struct have different names (`StructDef.Regular`), a
name stands for one position, and what comes out can be said without positions: `Check.Writes` are the
values that are written, one after another, and `Check.Supplied` is what a field has in the end. An
initializer is accepted exactly if every name is that of a field, no name comes twice and every field
is written or has a default (`Check.structValue_eq_ok_iff`), and else the first that is wrong is
named in the diagnostic.
-/

namespace OwnLang.Check

open Surface (Ident)

/-- Values are written for fields one after another. Each is checked as one of its field's type, and
given away. -/
inductive Writes (ask : Asker) (scope : Scope) (declared : List Field) :
    List (Ident × Surface.Expr) → Context → List Core.Expr → Context → Prop
  | nil (c : Context) : Writes ask scope declared [] c [] c
  | cons {name : Ident} {e : Surface.Expr} {rest : List (Ident × Surface.Expr)} {f : Field}
    {value : Core.Expr} {values : List Core.Expr} {c c₁ c₂ d : Context} (hf : f ∈ declared)
    (hname : f.name.name = name.name)
    (hvalue : ask (.value e (some f.type) scope) c = .ok value c₁)
    (hconsume : consume value c₁ = .ok ⟨⟩ c₂) (hrest : Writes ask scope declared rest c₂ values d) :
    Writes ask scope declared ((name, e) :: rest) c (value :: values) d

/-- The value that a field has: the one written for its name, and its default if there is none. -/
def Supplied (fields : List (Ident × Surface.Expr)) (written : List Core.Expr) (f : Field)
    (value : Core.Expr) : Prop :=
  (∃ name e, ((name, e), value) ∈ fields.zip written ∧ name.name = f.name.name) ∨
    f.name.name ∉ fields.map (·.1.name) ∧ f.default = some value

/-- The position of the field of a name. -/
def position (declared : List Field) (name : String) : ℕ := declared.findIdx (·.name.name == name)

/-- The values that are written, at the positions of their fields. -/
def placed (declared : List Field) (fields : List (Ident × Surface.Expr)) (written : List Core.Expr) :
    List FieldValue :=
  (fields.zip written).map fun w => ⟨position declared w.1.1.name, w.2, w.1.1.span⟩

variable {ask : Asker} {scope : Scope} {declared : List Field} {fields : List (Ident × Surface.Expr)}
  {written : List Core.Expr} {c d : Context}

/-! ## Positions -/

theorem findIdx?_of_mem {f : Field} (hf : f ∈ declared) : declared.findIdx? (·.name.name == f.name.name) =
    some (position declared f.name.name) := by
  refine List.findIdx?_eq_some_iff_findIdx_eq.mpr ⟨?_, rfl⟩
  exact List.findIdx_lt_length_of_exists ⟨f, hf, by simp⟩

/-- The field of a name stands at its position. -/
theorem name_position {name : String} (h : ∃ f ∈ declared, f.name.name = name) :
    ∃ f, declared[position declared name]? = some f ∧ f.name.name = name := by
  obtain ⟨f, hf, hname⟩ := h
  have hlt : position declared name < declared.length :=
    List.findIdx_lt_length_of_exists ⟨f, hf, by simp [hname]⟩
  refine ⟨declared[position declared name], List.getElem?_eq_getElem hlt, ?_⟩
  have hfound := List.findIdx_getElem (w := hlt)
  exact beq_iff_eq.mp hfound

theorem eq_of_name (hdistinct : (declared.map (·.name.name)).Nodup) {f g : Field} (hf : f ∈ declared)
    (hg : g ∈ declared) (hname : f.name.name = g.name.name) : f = g :=
  List.inj_on_of_nodup_map hdistinct hf hg hname

theorem getElem?_position (hdistinct : (declared.map (·.name.name)).Nodup) {f : Field} (hf : f ∈ declared) :
    declared[position declared f.name.name]? = some f := by
  obtain ⟨g, hg, hname⟩ := name_position ⟨f, hf, rfl⟩
  rw [hg, eq_of_name hdistinct (List.mem_of_getElem? hg) hf hname]

theorem position_inj {name name' : String} (h : ∃ f ∈ declared, f.name.name = name)
    (h' : ∃ f ∈ declared, f.name.name = name')
    (heq : position declared name = position declared name') : name = name' := by
  obtain ⟨f, hf, rfl⟩ := name_position h
  obtain ⟨g, hg, rfl⟩ := name_position h'
  rw [heq] at hf
  rw [Option.some.inj (hf.symm.trans hg)]

theorem Writes.length (h : Writes ask scope declared fields c written d) :
    written.length = fields.length := by
  induction h with
  | nil => rfl
  | cons _ _ _ _ _ ih => simp [ih]

theorem Writes.known (h : Writes ask scope declared fields c written d) :
    ∀ w ∈ fields, ∃ f ∈ declared, f.name.name = w.1.name := by
  induction h with
  | nil => exact fun w hw => by cases hw
  | @cons _ _ _ f _ _ _ _ _ _ hf hname _ _ _ ih =>
    intro w hw
    rcases List.mem_cons.mp hw with rfl | hw
    · exact ⟨f, hf, hname⟩
    · exact ih w hw

theorem index_placed (hlength : written.length = fields.length) :
    (placed declared fields written).map (·.index) =
      (fields.map (·.1.name)).map (position declared) := by
  have hfst : (fields.zip written).map Prod.fst = fields := List.map_fst_zip hlength.ge
  calc (placed declared fields written).map (·.index)
    _ = ((fields.zip written).map Prod.fst).map fun w => position declared w.1.name := by
      simp [placed, Function.comp_def]
    _ = (fields.map (·.1.name)).map (position declared) := by
      rw [hfst, List.map_map]
      rfl

/-- Positions are taken once exactly if names are. -/
theorem nodup_placed (h : Writes ask scope declared fields c written d) :
    ((placed declared fields written).map (·.index)).Nodup ↔ (fields.map (·.1.name)).Nodup := by
  rw [index_placed h.length]
  refine ⟨List.Nodup.of_map _, List.Nodup.map_on fun name hname name' hname' => ?_⟩
  obtain ⟨w, hw, rfl⟩ := List.mem_map.mp hname
  obtain ⟨w', hw', rfl⟩ := List.mem_map.mp hname'
  exact position_inj (h.known w hw) (h.known w' hw')

/-! ## Written values -/

/-- What is written is put behind what was. -/
theorem writtenFields_append (hdistinct : (declared.map (·.name.name)).Nodup)
    (h : Writes ask scope declared fields c written d) {done : List FieldValue}
    (hnodup : ((done ++ placed declared fields written).map (·.index)).Nodup)
    (rest : List (Ident × Surface.Expr)) :
    writtenFields ask scope declared done (fields ++ rest) c =
      writtenFields ask scope declared (done ++ placed declared fields written) rest d := by
  induction h generalizing done with
  | nil => simp [placed]
  | @cons name e more f value values c c₁ c₂ d hf hname hvalue hconsume hmore ih =>
    have hplaced : placed declared ((name, e) :: more) (value :: values) =
        ⟨position declared name.name, value, name.span⟩ :: placed declared more values := rfl
    rw [hplaced, List.append_cons] at hnodup ⊢
    rw [List.cons_append, ← ih hnodup]
    have hindex := findIdx?_of_mem hf
    rw [hname] at hindex
    have hfield := getElem?_position hdistinct hf
    rw [hname] at hfield
    have hnew : done.find? (·.index == position declared name.name) = none := by
      rw [List.find?_eq_none]
      intro entry hentry hsame
      have hdisjoint := hnodup
      rw [List.append_assoc, List.map_append] at hdisjoint
      refine (List.nodup_append.mp hdisjoint).2.2 _ (List.mem_map_of_mem hentry) _ ?_
        (beq_iff_eq.mp hsame)
      simp
    conv_lhs => unfold writtenFields
    rw [hindex]
    simp only
    rw [hnew]
    rw [hfield, Option.map_some]
    show (ask (.value e (some f.type) scope) >>= _ : Check _) c = _
    rw [Run.bind_apply, hvalue]
    show (consume value >>= _ : Check _) c₁ = _
    rw [Run.bind_apply, hconsume]

theorem writtenFields_start (hdistinct : (declared.map (·.name.name)).Nodup)
    (h : Writes ask scope declared fields c written d) (hnodup : (fields.map (·.1.name)).Nodup)
    (rest : List (Ident × Surface.Expr)) :
    writtenFields ask scope declared [] (fields ++ rest) c =
      writtenFields ask scope declared (placed declared fields written) rest d := by
  have hplaced := (nodup_placed h).mpr hnodup
  have hstart := writtenFields_append hdistinct h (by rwa [List.nil_append]) rest
  rwa [List.nil_append] at hstart

/-- A name that no field has is refused where it is met. -/
theorem writtenFields_unknown {name : Ident} (hname : ∀ f ∈ declared, f.name.name ≠ name.name)
    (done : List FieldValue) (e : Surface.Expr) (rest : List (Ident × Surface.Expr)) (c : Context) :
    writtenFields ask scope declared done ((name, e) :: rest) c =
      .error ⟨.undefinedProperty name.name, name.span, none⟩ c := by
  have hnone : declared.findIdx? (·.name.name == name.name) = none := by
    rw [List.findIdx?_eq_none_iff]
    intro f hf
    simpa using hname f hf
  unfold writtenFields
  rw [hnone]
  rfl

/-- A name that was written before is refused, with the place where it was. -/
theorem writtenFields_again {name : Ident} (hname : ∃ f ∈ declared, f.name.name = name.name)
    {done : List FieldValue} {previous : FieldValue}
    (hprevious : done.find? (·.index == position declared name.name) = some previous)
    (e : Surface.Expr) (rest : List (Ident × Surface.Expr)) (c : Context) :
    writtenFields ask scope declared done ((name, e) :: rest) c =
      .error (alreadyExists "Property" name "Already initialized here" previous.span) c := by
  obtain ⟨f, hf, hname⟩ := hname
  have hindex := findIdx?_of_mem hf
  rw [hname] at hindex
  conv_lhs => unfold writtenFields
  rw [hindex]
  simp only
  rw [hprevious]
  rfl

/-- Values that are accepted are written for fields of different names. -/
theorem writes_of_writtenFields {done out : List FieldValue} (hnodup : (done.map (·.index)).Nodup)
    (h : writtenFields ask scope declared done fields c = .ok out d) :
    ∃ written, Writes ask scope declared fields c written d ∧
      (out.map (·.index)).Nodup ∧ out = done ++ placed declared fields written := by
  induction fields generalizing c done with
  | nil =>
    cases h
    exact ⟨[], .nil _, hnodup, by simp [placed]⟩
  | cons first rest ih =>
    obtain ⟨name, e⟩ := first
    by_cases hknown : ∃ f ∈ declared, f.name.name = name.name
    · cases hprevious : done.find? (·.index == position declared name.name) with
      | some previous =>
        rw [writtenFields_again hknown hprevious] at h
        cases h
      | none =>
        obtain ⟨f, hfield, hname⟩ := name_position hknown
        have hf := List.mem_of_getElem? hfield
        have hindex := findIdx?_of_mem hf
        rw [hname] at hindex
        unfold writtenFields at h
        rw [hindex] at h
        simp only at h
        rw [hprevious, hfield, Option.map_some] at h
        obtain ⟨value, c₁, hvalue, h⟩ := Run.bind_eq_ok.mp h
        obtain ⟨⟨⟩, c₂, hconsume, h⟩ := Run.bind_eq_ok.mp h
        have hnew : ((done ++ [(⟨position declared name.name, value, name.span⟩ : FieldValue)]).map
            (·.index)).Nodup := by
          rw [List.map_append, List.map_singleton, ← List.concat_eq_append]
          refine hnodup.concat fun hmem => ?_
          obtain ⟨entry, hentry, hsame⟩ := List.mem_map.mp hmem
          exact List.find?_eq_none.mp hprevious entry hentry (beq_iff_eq.mpr hsame)
        obtain ⟨values, hwrites, hout, rfl⟩ := ih hnew h
        refine ⟨value :: values, .cons hf hname hvalue hconsume hwrites, hout, ?_⟩
        rw [← List.append_cons]
        rfl
    · rw [writtenFields_unknown (by simpa using hknown)] at h
      cases h

/-! ## Fields without a written value -/

/-- What a field at a position has: what is written there, or its default. -/
def valueAt (entries : List FieldValue) (f : Field) (index : ℕ) : Option Core.Expr :=
  ((entries.find? (·.index == index)).map (·.value)).or f.default

theorem fieldValues_cons (entries : List FieldValue) (span : Span) (index : ℕ) (f : Field)
    (rest : List Field) : fieldValues entries span index (f :: rest) =
      match valueAt entries f index with
      | some value => (fieldValues entries span (index + 1) rest).map (value :: ·)
      | none => .error ⟨.missingProperty f.name.name, span, none⟩ := rfl

/-- One value for each field, if all have one. -/
theorem fieldValues_eq_ok_iff {entries : List FieldValue} {span : Span} {index : ℕ} {rest : List Field}
    {values : List Core.Expr} : fieldValues entries span index rest = .ok values ↔
      List.Forall₂ (fun w value => valueAt entries w.1 w.2 = some value) (rest.zipIdx index) values := by
  induction rest generalizing index values with
  | nil =>
    rw [List.zipIdx_nil, List.forall₂_nil_left_iff]
    exact ⟨fun h => (Except.ok.inj h).symm, fun h => congrArg Except.ok h.symm⟩
  | cons f rest ih =>
    rw [List.zipIdx_cons, List.forall₂_cons_left_iff, fieldValues_cons]
    cases hvalue : valueAt entries f index with
    | none => simp
    | some value =>
      simp only [Option.some.injEq]
      constructor
      · intro h
        cases hrest : fieldValues entries span (index + 1) rest with
        | error e =>
          rw [hrest] at h
          cases h
        | ok more =>
          rw [hrest] at h
          exact ⟨value, more, rfl, ih.mp hrest, (Except.ok.inj h).symm⟩
      · rintro ⟨_, more, rfl, hrest, rfl⟩
        rw [ih.mpr hrest]
        rfl

/-- The first field without a value is missing. -/
theorem fieldValues_missing {entries : List FieldValue} {span : Span} {index : ℕ}
    {ahead behind : List Field} {f : Field}
    (hahead : ∀ g i, (g, i) ∈ ahead.zipIdx index → (valueAt entries g i).isSome = true)
    (hf : valueAt entries f (index + ahead.length) = none) :
    fieldValues entries span index (ahead ++ f :: behind) =
      .error ⟨.missingProperty f.name.name, span, none⟩ := by
  induction ahead generalizing index with
  | nil =>
    rw [List.nil_append, fieldValues_cons, show valueAt entries f index = none from hf]
  | cons g rest ih =>
    have hmore : fieldValues entries span (index + 1) (rest ++ f :: behind) =
        .error ⟨.missingProperty f.name.name, span, none⟩ := by
      refine ih (fun g' i hg' => hahead g' i (by simp [List.zipIdx_cons, hg'])) ?_
      rw [← hf, List.length_cons]
      congr 1
      omega
    obtain ⟨value, hvalue⟩ := Option.isSome_iff_exists.mp (hahead g index (by simp [List.zipIdx_cons]))
    rw [List.cons_append, fieldValues_cons, hvalue, hmore]
    rfl

theorem position_of_mem_zipIdx (hdistinct : (declared.map (·.name.name)).Nodup) {f : Field} {i : ℕ}
    (hf : (f, i) ∈ declared.zipIdx) : position declared f.name.name = i := by
  have hi : declared[i]? = some f := List.mem_zipIdx_iff_getElem?.mp hf
  obtain ⟨hlt, rfl⟩ := List.getElem?_eq_some_iff.mp hi
  refine (List.findIdx_eq hlt).mpr ⟨by simp, fun j hj => ?_⟩
  have hne := (List.pairwise_iff_getElem.mp hdistinct) j i (by simp; omega) (by simpa using hlt) hj
  simpa using hne

theorem mem_placed {entry : FieldValue} : entry ∈ placed declared fields written ↔
    ∃ name e value, ((name, e), value) ∈ fields.zip written ∧
      entry = ⟨position declared name.name, value, name.span⟩ := by
  unfold placed
  rw [List.mem_map]
  constructor
  · rintro ⟨⟨⟨name, e⟩, value⟩, hw, rfl⟩
    exact ⟨name, e, value, hw, rfl⟩
  · rintro ⟨name, e, value, hw, rfl⟩
    exact ⟨⟨⟨name, e⟩, value⟩, hw, rfl⟩

/-- Every written name has a value. -/
theorem exists_mem_zip (hlength : written.length = fields.length) {name : String}
    (hname : name ∈ fields.map (·.1.name)) :
    ∃ ident e value, ((ident, e), value) ∈ fields.zip written ∧ ident.name = name := by
  obtain ⟨⟨ident, e⟩, hw, rfl⟩ := List.mem_map.mp hname
  have hfst : (ident, e) ∈ (fields.zip written).map Prod.fst := by
    rwa [List.map_fst_zip hlength.ge]
  obtain ⟨⟨_, value⟩, hmem, rfl⟩ := List.mem_map.mp hfst
  exact ⟨ident, e, value, hmem, rfl⟩

theorem find?_index {entries : List FieldValue} (hnodup : (entries.map (·.index)).Nodup)
    {entry : FieldValue} (h : entry ∈ entries) :
    entries.find? (·.index == entry.index) = some entry := by
  cases hfind : entries.find? (·.index == entry.index) with
  | none => exact absurd (beq_self_eq_true _) (List.find?_eq_none.mp hfind entry h)
  | some other =>
    have hsame := List.find?_some hfind
    rw [List.inj_on_of_nodup_map hnodup (List.mem_of_find?_eq_some hfind) h (beq_iff_eq.mp hsame)]

/-- At its position, a field has what it is supplied with. -/
theorem valueAt_placed_iff (hdistinct : (declared.map (·.name.name)).Nodup)
    (hwrites : Writes ask scope declared fields c written d) (hnodup : (fields.map (·.1.name)).Nodup)
    {f : Field} {i : ℕ} (hf : (f, i) ∈ declared.zipIdx) {value : Core.Expr} :
    valueAt (placed declared fields written) f i = some value ↔ Supplied fields written f value := by
  have hposition := position_of_mem_zipIdx hdistinct hf
  have hdeclared : f ∈ declared := List.fst_mem_of_mem_zipIdx hf
  unfold valueAt Supplied
  cases hfind : (placed declared fields written).find? (·.index == i) with
  | none =>
    have hno {ident : Ident} {e : Surface.Expr} {v : Core.Expr} (hw : ((ident, e), v) ∈ fields.zip written) :
        ident.name ≠ f.name.name := by
      intro hname
      refine List.find?_eq_none.mp hfind _ (mem_placed.mpr ⟨ident, e, v, hw, rfl⟩) ?_
      simp [hname, hposition]
    have hunwritten : f.name.name ∉ fields.map (·.1.name) := by
      intro hmem
      obtain ⟨ident, e, v, hw, hname⟩ := exists_mem_zip hwrites.length hmem
      exact hno hw hname
    rw [Option.map_none, Option.none_or]
    refine ⟨fun hdefault => .inr ⟨hunwritten, hdefault⟩, ?_⟩
    rintro (⟨ident, e, hw, hname⟩ | ⟨-, hdefault⟩)
    · exact absurd hname (hno hw)
    · exact hdefault
  | some entry =>
    have hentry := List.mem_of_find?_eq_some hfind
    have hfound := List.find?_some hfind
    have hindex : entry.index = i := beq_iff_eq.mp hfound
    obtain ⟨ident, e, v, hw, rfl⟩ := mem_placed.mp hentry
    have hname : ident.name = f.name.name :=
      position_inj (hwrites.known _ (List.of_mem_zip hw).1) ⟨f, hdeclared, rfl⟩ (hindex.trans hposition.symm)
    rw [Option.map_some, Option.some_or, Option.some.injEq]
    constructor
    · rintro rfl
      exact .inl ⟨ident, e, hw, hname⟩
    · rintro (⟨ident', e', hw', hname'⟩ | ⟨hunwritten, -⟩)
      · -- Two values for one name would be at one position.
        have hsame := List.inj_on_of_nodup_map ((nodup_placed hwrites).mpr hnodup) hentry
          (mem_placed.mpr ⟨ident', e', value, hw', rfl⟩) (by simp only [hname, hname'])
        exact congrArg FieldValue.value hsame
      · exact absurd (List.mem_map.mpr ⟨_, (List.of_mem_zip hw).1, hname⟩) hunwritten

/-! ## Initializers -/

/-- The struct that an initializer makes a value of, and its fields. -/
structure Opens (ask : Asker) (t : Surface.TypeExpr) (scope : Scope) (c : Context) (target : Ty)
    (id : StructId) (d : Context) : Prop where
  named : target.shape.struct? = some id
  laid : ∃ c₁, ask (.type t scope) c = .ok target c₁ ∧ ask (.layout id t.span) c₁ = .ok ⟨⟩ d

/-- Once the struct is known, the values are written, and the others taken from the defaults. -/
theorem structValue_of_opens {t : Surface.TypeExpr} {target : Ty} {id : StructId} {c₁ : Context}
    (h : Opens ask t scope c target id c₁) (heap : Bool) (span : Span) :
    structValue ask t fields heap span scope c =
      (do
        let written ← writtenFields ask scope (c₁.struct id).fields [] fields
        let values ← Run.ofExcept (fieldValues written span 0 (c₁.struct id).fields)
        return initialized (.structInit id values heap) target heap span : Check Core.Expr) c₁ := by
  obtain ⟨hnamed, c₀, htype, hlayout⟩ := h
  unfold structValue
  rw [Run.bind_apply, htype]
  simp only [hnamed]
  rw [Run.bind_apply, hlayout]
  rfl

/-- A value is made of a struct that is known. -/
theorem opens_of_structValue {t : Surface.TypeExpr} {heap : Bool} {span : Span} {out : Core.Expr}
    (h : structValue ask t fields heap span scope c = .ok out d) :
    ∃ target id c₁, Opens ask t scope c target id c₁ := by
  unfold structValue at h
  obtain ⟨target, c₀, htype, h⟩ := Run.bind_eq_ok.mp h
  cases hnamed : target.shape.struct? with
  | none =>
    rw [hnamed] at h
    cases h
  | some id =>
    rw [hnamed] at h
    obtain ⟨⟨⟩, c₁, hlayout, -⟩ := Run.bind_eq_ok.mp h
    exact ⟨target, id, c₁, hnamed, c₀, htype, hlayout⟩

/-- The values at the positions of fields are those that they are supplied with. -/
theorem forall₂_supplied (hdistinct : (declared.map (·.name.name)).Nodup)
    (hwrites : Writes ask scope declared fields c written d) (hnodup : (fields.map (·.1.name)).Nodup)
    {values : List Core.Expr} :
    List.Forall₂ (fun w value => valueAt (placed declared fields written) w.1 w.2 = some value)
      declared.zipIdx values ↔ List.Forall₂ (Supplied fields written) declared values := by
  have hfst : declared.zipIdx.map Prod.fst = declared := List.zipIdx_map_fst 0 declared
  rw [← hfst, List.forall₂_map_left_iff, hfst, List.forall₂_iff_zip, List.forall₂_iff_zip]
  refine and_congr_right fun _ => forall_congr' fun w => forall_congr' fun value =>
    forall_congr' fun hw => ?_
  exact valueAt_placed_iff hdistinct hwrites hnodup (List.of_mem_zip hw).1

/-- An initializer is accepted exactly if every name is that of a field, no name comes twice and every
field has a value; and these values are its parts, in the order of the fields. -/
theorem structValue_eq_ok_iff {t : Surface.TypeExpr} {heap : Bool} {span : Span} {out : Core.Expr}
    (hdistinct : ∀ {target id c₁}, Opens ask t scope c target id c₁ →
      ((c₁.struct id).fields.map (·.name.name)).Nodup) :
    structValue ask t fields heap span scope c = .ok out d ↔
      ∃ target id c₁ written values, Opens ask t scope c target id c₁ ∧
        Writes ask scope (c₁.struct id).fields fields c₁ written d ∧ (fields.map (·.1.name)).Nodup ∧
        List.Forall₂ (Supplied fields written) (c₁.struct id).fields values ∧
        out = initialized (.structInit id values heap) target heap span := by
  constructor
  · intro h
    obtain ⟨target, id, c₁, hopens⟩ := opens_of_structValue h
    rw [structValue_of_opens hopens] at h
    obtain ⟨entries, d', hentries, h⟩ := Run.bind_eq_ok.mp h
    obtain ⟨values, d'', hfilled, hreturn⟩ := Run.bind_eq_ok.mp h
    obtain ⟨rfl, rfl⟩ := Outcome.ok.inj hreturn
    obtain ⟨hvalues, rfl⟩ := Run.ofExcept_eq_ok.mp hfilled
    have hnone : (([] : List FieldValue).map (·.index)).Nodup := List.nodup_nil
    obtain ⟨written, hwrites, hindexes, rfl⟩ := writes_of_writtenFields hnone hentries
    have hnodup := (nodup_placed hwrites).mp hindexes
    have hsupplied := (forall₂_supplied (hdistinct hopens) hwrites hnodup).mp
      (fieldValues_eq_ok_iff.mp hvalues)
    exact ⟨target, id, c₁, written, values, hopens, hwrites, hnodup, hsupplied, rfl⟩
  · rintro ⟨target, id, c₁, written, values, hopens, hwrites, hnodup, hsupplied, rfl⟩
    have hentries := writtenFields_start (hdistinct hopens) hwrites hnodup []
    rw [List.append_nil] at hentries
    have hvalues : fieldValues (placed (c₁.struct id).fields fields written) span 0
        (c₁.struct id).fields = .ok values :=
      fieldValues_eq_ok_iff.mpr ((forall₂_supplied (hdistinct hopens) hwrites hnodup).mpr hsupplied)
    rw [structValue_of_opens hopens, Run.bind_apply, hentries]
    show (Run.ofExcept (fieldValues (placed _ fields written) span 0 _) >>= _ : Check Core.Expr) d = _
    rw [hvalues]
    rfl

/-! ## Refused initializers -/

section

variable {t : Surface.TypeExpr} {target : Ty} {id : StructId} {c₁ c₂ : Context}
  (hopens : Opens ask t scope c target id c₁)
  (hdistinct : ((c₁.struct id).fields.map (·.name.name)).Nodup)
  {before : List (Ident × Surface.Expr)}
  (hwrites : Writes ask scope (c₁.struct id).fields before c₁ written c₂)
  (hnodup : (before.map (·.1.name)).Nodup) (heap : Bool) (span : Span)

include hopens hdistinct hwrites hnodup

/-- The values up to some name are written before the name is looked at. -/
theorem structValue_append {e : Diagnostic} {rest : List (Ident × Surface.Expr)}
    (h : writtenFields ask scope (c₁.struct id).fields
      (placed (c₁.struct id).fields before written) rest c₂ = .error e c₂) :
    structValue ask t (before ++ rest) heap span scope c = .error e c₂ := by
  rw [structValue_of_opens hopens, Run.bind_apply, writtenFields_start hdistinct hwrites hnodup, h]

theorem structValue_unknown {name : Ident} (e : Surface.Expr) (rest : List (Ident × Surface.Expr))
    (hname : ∀ f ∈ (c₁.struct id).fields, f.name.name ≠ name.name) :
    structValue ask t (before ++ (name, e) :: rest) heap span scope c =
      .error ⟨.undefinedProperty name.name, name.span, none⟩ c₂ :=
  structValue_append hopens hdistinct hwrites hnodup heap span (writtenFields_unknown hname _ e rest c₂)

theorem structValue_again {first name : Ident} {e : Surface.Expr} (hfirst : (first, e) ∈ before)
    (hname : first.name = name.name) (e' : Surface.Expr) (rest : List (Ident × Surface.Expr)) :
    structValue ask t (before ++ (name, e') :: rest) heap span scope c =
      .error (alreadyExists "Property" name "Already initialized here" first.span) c₂ := by
  have hfst : (first, e) ∈ (before.zip written).map Prod.fst := by
    rwa [List.map_fst_zip hwrites.length.ge]
  obtain ⟨⟨_, value⟩, hmem, rfl⟩ := List.mem_map.mp hfst
  have hknown := hwrites.known _ hfirst
  have hfound := find?_index ((nodup_placed hwrites).mpr hnodup) (mem_placed.mpr ⟨_, _, value, hmem, rfl⟩)
  simp only [hname] at hknown hfound
  exact structValue_append hopens hdistinct hwrites hnodup heap span
    (writtenFields_again hknown hfound e' rest c₂)

theorem structValue_missing {ahead behind : List Field} {f : Field}
    (hdeclared : (c₁.struct id).fields = ahead ++ f :: behind)
    (hahead : ∀ g ∈ ahead, g.name.name ∈ before.map (·.1.name) ∨ g.default.isSome = true)
    (hunwritten : f.name.name ∉ before.map (·.1.name)) (hdefault : f.default = none) :
    structValue ask t before heap span scope c =
      .error ⟨.missingProperty f.name.name, span, none⟩ c₂ := by
  have hentries := writtenFields_start hdistinct hwrites hnodup []
  rw [List.append_nil] at hentries
  have hat {g : Field} {i : ℕ} (hg : (c₁.struct id).fields[i]? = some g) {value : Core.Expr} :
      valueAt (placed (c₁.struct id).fields before written) g i = some value ↔
        Supplied before written g value :=
    valueAt_placed_iff hdistinct hwrites hnodup (List.mem_zipIdx_iff_getElem?.mpr hg)
  have hmissing : fieldValues (placed (c₁.struct id).fields before written) span 0
      (ahead ++ f :: behind) = .error ⟨.missingProperty f.name.name, span, none⟩ := by
    refine fieldValues_missing (fun g i hg => ?_) (Option.eq_none_iff_forall_ne_some.mpr fun value hvalue => ?_)
    · have hg' := List.mem_zipIdx_iff_getElem?.mp hg
      have hplace : (c₁.struct id).fields[i]? = some g := by
        rw [hdeclared, List.getElem?_append_left (List.getElem?_eq_some_iff.mp hg').1, hg']
      rw [Option.isSome_iff_exists]
      by_cases hwritten : g.name.name ∈ before.map (·.1.name)
      · obtain ⟨ident, e, value, hw, hname⟩ := exists_mem_zip hwrites.length hwritten
        exact ⟨value, (hat hplace).mpr (.inl ⟨ident, e, hw, hname⟩)⟩
      · obtain ⟨value, hvalue⟩ := Option.isSome_iff_exists.mp
          ((hahead g (List.mem_of_getElem? hg')).resolve_left hwritten)
        exact ⟨value, (hat hplace).mpr (.inr ⟨hwritten, hvalue⟩)⟩
    · rw [Nat.zero_add] at hvalue
      have hplace : (c₁.struct id).fields[ahead.length]? = some f := by
        rw [hdeclared, List.getElem?_append_right le_rfl, Nat.sub_self]
        rfl
      rcases (hat hplace).mp hvalue with ⟨ident, e, hw, hname⟩ | ⟨-, hsome⟩
      · exact hunwritten (List.mem_map.mpr ⟨_, (List.of_mem_zip hw).1, hname⟩)
      · rw [hdefault] at hsome
        cases hsome
  rw [structValue_of_opens hopens, Run.bind_apply, hentries]
  show (Run.ofExcept (fieldValues (placed _ before written) span 0 _) >>= _ : Check Core.Expr) c₂ = _
  rw [hdeclared] at hmissing ⊢
  rw [hmissing]
  rfl

end

/-! ## Types of values -/

/-- An answer for an expected type has that type. -/
theorem same_answerTo_value {n : ℕ} {e : Surface.Expr} {t : Ty} {value : Core.Expr}
    (h : answerTo n (.value e (some t) scope) c = .ok value d) : value.type.same t = true := by
  cases n with
  | zero => cases h
  | succ n =>
    replace h : checkValue (answerTo n) e (some t) scope c = .ok value d := h
    unfold checkValue at h
    obtain ⟨raw, c₁, -, h⟩ := Run.bind_eq_ok.mp h
    split at h
    · obtain ⟨_, _, hvoid, -⟩ := Run.bind_eq_ok.mp h
      cases hvoid
    · exact type_coerce (Run.ofExcept_eq_ok.mp h).1

theorem Writes.typed {n : ℕ} (h : Writes (answerTo n) scope declared fields c written d) :
    ∀ name e value, ((name, e), value) ∈ fields.zip written →
      ∃ f ∈ declared, f.name.name = name.name ∧ value.type.same f.type = true := by
  induction h with
  | nil => exact fun _ _ _ hw => by cases hw
  | @cons _ _ _ f _ _ _ _ _ _ hf hname hvalue _ _ ih =>
    intro name e value hw
    rcases List.mem_cons.mp hw with hw | hw
    · cases hw
      exact ⟨f, hf, hname, same_answerTo_value hvalue⟩
    · exact ih name e value hw

/-- What a field is supplied with has its type. -/
theorem Supplied.typed {n : ℕ} (hwrites : Writes (answerTo n) scope declared fields c written d)
    (hdistinct : (declared.map (·.name.name)).Nodup) {Γ : Core.TypeEnv} {f : Field} (hf : f ∈ declared)
    (hsound : f.Sound Γ) {value : Core.Expr} (h : Supplied fields written f value) :
    value.type.same f.type = true := by
  rcases h with ⟨name, e, hw, hname⟩ | ⟨-, hdefault⟩
  · obtain ⟨g, hg, hgname, hsame⟩ := hwrites.typed name e value hw
    rwa [← eq_of_name hdistinct hg hf (hgname.trans hname)]
  · exact (hsound value hdefault).2

/-- The struct of an initializer is complete, and what is known of complete structs holds of it. -/
theorem laid_of_opens (hc : Session.Amidst c) {n : ℕ} {t : Surface.TypeExpr} {target : Ty}
    {id : StructId} {c₁ : Context} (h : Opens (answerTo n) t scope c target id c₁) :
    (c₁.struct id).state = .complete ∧ (c₁.struct id).Regular ∧ (c₁.struct id).Sound (c₁.envWith #[]) := by
  obtain ⟨-, c₀, htype, hlayout⟩ := h
  have hkeeps (q : Query) : (answerTo n q).Preserves (Elaborated c) := (elaborates_answerTo n).keeps c q
  have hc₀ := hkeeps _ (Run.ends_of_ok htype) ⟨.refl c, hc.wellTyped⟩
  have hc₁ := hkeeps _ (Run.ends_of_ok hlayout) hc₀
  have hlaid : Laid {} c₁ := laid_answerTo n _ (Run.ends_of_ok hlayout)
    (laid_answerTo n _ (Run.ends_of_ok htype) hc.laid)
  refine ⟨?_, hlaid.regular.structs id, hc₁.wellTyped.structs id⟩
  cases n with
  | zero => cases hlayout
  | succ n =>
    have helaborates : Elaborates (answerTo n) := elaborates_answerTo n
    exact complete_resolveStruct helaborates hc₀.wellTyped hlayout

/-- What is wrong with an initializer is named at the place where it is found. The values that come
ahead of it were accepted. -/
structure Refuses (ask : Asker) (t : Surface.TypeExpr) (fields : List (Ident × Surface.Expr)) (heap : Bool)
    (span : Span) (scope : Scope) (c : Context) (declared : List Field) (c₁ : Context) : Prop where
  unknown : ∀ before name e rest written d, fields = before ++ (name, e) :: rest →
    Writes ask scope declared before c₁ written d → (before.map (·.1.name)).Nodup →
    (∀ f ∈ declared, f.name.name ≠ name.name) →
    structValue ask t fields heap span scope c = .error ⟨.undefinedProperty name.name, name.span, none⟩ d
  again : ∀ before first e name e' rest written d, fields = before ++ (name, e') :: rest →
    Writes ask scope declared before c₁ written d → (before.map (·.1.name)).Nodup →
    (first, e) ∈ before → first.name = name.name →
    structValue ask t fields heap span scope c =
      .error (alreadyExists "Property" name "Already initialized here" first.span) d
  missing : ∀ ahead f behind written d, Writes ask scope declared fields c₁ written d →
    (fields.map (·.1.name)).Nodup → declared = ahead ++ f :: behind →
    (∀ g ∈ ahead, g.name.name ∈ fields.map (·.1.name) ∨ g.default.isSome = true) →
    f.name.name ∉ fields.map (·.1.name) → f.default = none →
    structValue ask t fields heap span scope c = .error ⟨.missingProperty f.name.name, span, none⟩ d

theorem refuses_of_opens {t : Surface.TypeExpr} {target : Ty} {id : StructId} {c₁ : Context}
    (hopens : Opens ask t scope c target id c₁)
    (hdistinct : ((c₁.struct id).fields.map (·.name.name)).Nodup) (heap : Bool) (span : Span) :
    Refuses ask t fields heap span scope c (c₁.struct id).fields c₁ where
  unknown before name e rest written d hfields hwrites hnodup hname := by
    subst hfields
    exact structValue_unknown hopens hdistinct hwrites hnodup heap span e rest hname
  again before first e name e' rest written d hfields hwrites hnodup hfirst hname := by
    subst hfields
    exact structValue_again hopens hdistinct hwrites hnodup heap span hfirst hname e' rest
  missing _ _ _ _ _ hwrites hnodup hdeclared hahead hunwritten hdefault :=
    structValue_missing hopens hdistinct hwrites hnodup heap span hdeclared hahead hunwritten hdefault

/-- Struct initialization is total and exact. Wherever a session puts a question, the fields of a
complete struct are those of its declaration, in its order, and its fields, methods and static functions
have different names. An initializer, in a function or outside, is accepted exactly if its struct is
known, all the names in it are those of fields and different, and every field has a value of its type,
the one that is written for it or its default; these values are what the node holds, in the order of the
fields. If not, the first that is wrong is refused: a name that no field has, a name that came before, or
else the first field that has no value. -/
theorem structValue_exact (hc : Session.Amidst c) :
    (∀ id, (c.struct id).state = .complete →
      (c.struct id).fields.map (·.name) = (c.struct id).decl.fields.map (·.name) ∧
        ((c.struct id).fields.map (·.name.name) ++ (c.struct id).members.map (·.1)).Nodup) ∧
    ∀ (n : ℕ) (t : Surface.TypeExpr) (fields : List (Ident × Surface.Expr)) (heap : Bool) (span : Span)
        (scope : Scope),
      (∀ out d, structValue (answerTo n) t fields heap span scope c = .ok out d ↔
        ∃ target id c₁ written values, Opens (answerTo n) t scope c target id c₁ ∧
          Writes (answerTo n) scope (c₁.struct id).fields fields c₁ written d ∧
          (fields.map (·.1.name)).Nodup ∧
          List.Forall₂ (fun f value => Supplied fields written f value ∧ value.type.same f.type = true)
            (c₁.struct id).fields values ∧
          out = initialized (.structInit id values heap) target heap span) ∧
      ∀ target id c₁, Opens (answerTo n) t scope c target id c₁ →
        (c₁.struct id).state = .complete ∧
          (c₁.struct id).fields.map (·.name) = (c₁.struct id).decl.fields.map (·.name) ∧
          ((c₁.struct id).fields.map (·.name.name)).Nodup ∧
          Refuses (answerTo n) t fields heap span scope c (c₁.struct id).fields c₁ := by
  have hregular := hc.laid.regular.structs
  refine ⟨fun id hid => ⟨(hregular id).declared hid, (hregular id).distinct hid⟩,
    fun n t fields heap span scope => ?_⟩
  have hnames {target : Ty} {id : StructId} {c₁ : Context}
      (hopens : Opens (answerTo n) t scope c target id c₁) :
      ((c₁.struct id).fields.map (·.name.name)).Nodup := by
    obtain ⟨hcomplete, hregular, -⟩ := laid_of_opens hc hopens
    exact (List.nodup_append.mp (hregular.distinct hcomplete)).1
  refine ⟨fun out d => ?_, fun target id c₁ hopens => ?_⟩
  · rw [structValue_eq_ok_iff hnames]
    refine exists_congr fun target => exists_congr fun id => exists_congr fun c₁ =>
      exists_congr fun written => exists_congr fun values => and_congr_right fun hopens =>
        and_congr_right fun hwrites => and_congr_right fun _ => and_congr_left fun _ => ?_
    obtain ⟨-, -, hsound⟩ := laid_of_opens hc hopens
    rw [List.forall₂_iff_zip, List.forall₂_iff_zip]
    refine and_congr_right fun _ => forall_congr' fun f => forall_congr' fun value =>
      forall_congr' fun hw => ?_
    have hf := (List.of_mem_zip hw).1
    exact (and_iff_left_of_imp (Supplied.typed hwrites (hnames hopens) hf (hsound.defaults f hf))).symm
  · obtain ⟨hcomplete, hregular, -⟩ := laid_of_opens hc hopens
    exact ⟨hcomplete, hregular.declared hcomplete, hnames hopens,
      refuses_of_opens hopens (hnames hopens) heap span⟩

/-- A struct with a field whose type is that of its default. -/
def pointSources : List SourceFile :=
  [⟨"main.own", String.join
    [ "struct Point \x7b var x: i32; var y = 2; var z: i8; ",
      "static fn origin(): i32 \x7b return 0; \x7d \x7d" ]⟩]

/-- A function with a local `n: i32`. -/
def pointFrame : Frame :=
  let n : Local :=
    { name := ⟨"n", .null⟩, type := Shape.i32.plain, constant := true, ownership := .unset, value := none,
      depth := 0 }
  { function := ⟨0⟩, returns := Shape.void.plain, locals := #[n], blocks := [{ locals := [⟨0⟩] }] }

/-- `z: 3, x: n` -/
def pointFields : List (Ident × Surface.Expr) :=
  [(⟨"z", .null⟩, .mk (.number 3) .null), (⟨"x", .null⟩, .mk (.path [⟨"n", .null⟩] []) .null)]

/-- In the function `Point{z: 3, x: n}` has three parts in the order of the fields; that of `y` is its
default. -/
theorem structValue_exact_point :
    ∃ (c c₁ d : Context) (out : Core.Expr) (id : StructId) (written values : List Core.Expr),
      Session.Amidst { c with frame := some pointFrame } ∧
      structValue (answerTo 4) (.mk (.named [⟨"Point", .null⟩] []) .null) pointFields false .null
        (c.struct ⟨0⟩).scope { c with frame := some pointFrame } = .ok out d ∧
      out.kind = .structInit id values false ∧ values.length = 3 ∧
      List.Forall₂ (fun f value => Supplied pointFields written f value ∧ value.type.same f.type = true)
        (c₁.struct id).fields values := by
  have hrun : ((checkProgram { includeStd := false, requireEntry := false } pointSources).toOption.bind
      fun c => (structValue (answerTo 4) (.mk (.named [⟨"Point", .null⟩] []) .null) pointFields false .null
        (c.struct ⟨0⟩).scope { c with frame := some pointFrame }).value?.map fun out => match out.kind with
          | .structInit _ values _ => values.length
          | _ => 0) = some 3 := by
    rw [checkProgram_eq, pointSources, SourceFile.mapM_parse_join]
    decide +kernel
  cases hchecked : checkProgram { includeStd := false, requireEntry := false } pointSources with
  | error why =>
    rw [hchecked] at hrun
    cases hrun
  | ok c =>
    rw [hchecked] at hrun
    obtain ⟨files, -, hmodules⟩ := checkProgram_eq_ok hchecked
    have hc : Session.Amidst { c with frame := some pointFrame } :=
      ⟨c, some pointFrame, c.inProgress,
        Session.Reachable.moment ⟨_, .single (.modules files (Run.ends_of_ok hmodules))⟩, rfl⟩
    obtain ⟨out, hout, hlength⟩ := Option.map_eq_some_iff.mp hrun
    obtain ⟨d, hstruct⟩ := Outcome.value?_eq_some.mp hout
    obtain ⟨target, id, c₁, written, values, -, -, -, hvalues, rfl⟩ :=
      (((structValue_exact hc).2 4 _ pointFields false .null _).1 _ d).mp hstruct
    exact ⟨c, c₁, d, _, id, written, values, hc, hstruct, rfl, hlength, hvalues⟩

end OwnLang.Check
