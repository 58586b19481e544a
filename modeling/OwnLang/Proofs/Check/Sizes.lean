import OwnLang.Proofs.Check.Containment

/-!
# Layout sizes

`Context.HasSize` is the layout size of a type as a number that nothing bounds: an array takes as much as its
elements together, a struct as much as its fields. Every type has one such size at every moment of a session,
since structs do not contain themselves. `Context.sizeOf?` works it out with numbers of 64 bits. It says
nothing exactly if the type, or one of those that values of it are made of, needs a larger one; what it says is
the size (`Session.sizeOf?_exact`).
-/

namespace OwnLang

/-! ## Sums of bounded sizes -/

theorem boundedSize_eq_some {n m : ℕ} : boundedSize n = some m ↔ n = m ∧ m < wordBound := by
  unfold boundedSize
  by_cases h : n < wordBound
  · rw [if_pos h, Option.some.injEq]
    exact ⟨fun hnm => ⟨hnm, hnm ▸ h⟩, And.left⟩
  · rw [if_neg h]
    refine iff_of_false nofun ?_
    rintro ⟨rfl, hlt⟩
    exact h hlt

/-- The sum so far is bounded if the total is. -/
theorem foldlM_boundedSize {sizes : List (Option ℕ)} {before total : ℕ} (hbefore : before < wordBound) :
    sizes.foldlM (fun total size => do boundedSize (total + (← size))) before = some total ↔
      ∃ terms : List ℕ, sizes = terms.map some ∧ before + terms.sum = total ∧ total < wordBound := by
  induction sizes generalizing before with
  | nil =>
    rw [List.foldlM_nil]
    constructor
    · intro h
      obtain rfl : before = total := Option.some.inj h
      exact ⟨[], rfl, rfl, hbefore⟩
    · rintro ⟨terms, hterms, hsum, -⟩
      obtain rfl : terms = [] := List.map_eq_nil_iff.mp hterms.symm
      exact congrArg some hsum
  | cons size rest ih =>
    rw [List.foldlM_cons]
    constructor
    · intro h
      obtain ⟨next, hnext, h⟩ := Option.bind_eq_some_iff.mp h
      obtain ⟨term, rfl, hbounded⟩ := Option.bind_eq_some_iff.mp hnext
      obtain ⟨rfl, hlt⟩ := boundedSize_eq_some.mp hbounded
      obtain ⟨terms, rfl, hsum, htotal⟩ := (ih hlt).mp h
      exact ⟨term :: terms, rfl, by rw [List.sum_cons, ← hsum, Nat.add_assoc], htotal⟩
    · rintro ⟨terms, hterms, hsum, htotal⟩
      cases terms with
      | nil => cases hterms
      | cons term terms =>
        obtain ⟨rfl, rfl⟩ := List.cons.inj hterms
        rw [List.sum_cons, ← Nat.add_assoc] at hsum
        have hlt : before + term < wordBound := by omega
        show (boundedSize (before + term)).bind _ = some total
        rw [boundedSize_eq_some.mpr ⟨rfl, hlt⟩]
        exact (ih hlt).mpr ⟨terms, rfl, hsum, htotal⟩

/-- Sizes have a sum if there are all of them and 64 bits can hold it. -/
theorem sumSizes_eq_some {sizes : List (Option ℕ)} {total : ℕ} : sumSizes sizes = some total ↔
    ∃ terms : List ℕ, sizes = terms.map some ∧ terms.sum = total ∧ total < wordBound := by
  unfold sumSizes
  rw [foldlM_boundedSize (by decide)]
  simp only [Nat.zero_add]

namespace Context

theorem getElem_mem_zip {α β : Type} {l : List α} {l' : List β} {i : ℕ} (h : i < l.length) (h' : i < l'.length) :
    (l[i], l'[i]) ∈ l.zip l' := by
  rw [← List.getElem_zip (h := by simp [h, h'])]
  exact List.getElem_mem _

variable {c : Context} {t : Ty} {n : ℕ}

/-- The layout size of a type in bytes, however large it is. -/
inductive HasSize (c : Context) : Ty → ℕ → Prop
  | int (width : Width) (writtenAs : Option String) : HasSize c (.mk (.int width) writtenAs) (width.bits / 8)
  | bool (writtenAs : Option String) : HasSize c (.mk .bool writtenAs) 1
  | void (writtenAs : Option String) : HasSize c (.mk .void writtenAs) 0
  | func (params : List Ty) (variadic : Bool) (returns : Ty) (writtenAs : Option String) :
    HasSize c (.mk (.func params variadic returns) writtenAs) 8
  | owner (target : Ty) (constant : Bool) (writtenAs : Option String) :
    HasSize c (.mk (.owner target constant) writtenAs) 8
  | shared (target : Ty) (constant : Bool) (writtenAs : Option String) :
    HasSize c (.mk (.shared target constant) writtenAs) 8
  | unsized (element : Ty) (constant : Bool) (writtenAs : Option String) :
    HasSize c (.mk (.array element constant none) writtenAs) 8
  | array {element : Ty} {n : ℕ} (constant : Bool) (count : ℕ) (writtenAs : Option String)
    (h : HasSize c element n) : HasSize c (.mk (.array element constant (some count)) writtenAs) (count * n)
  | struct {id : StructId} {sizes : List ℕ} (name : String) (writtenAs : Option String)
    (hlength : sizes.length = (c.struct id).fields.length)
    (hsizes : ∀ f n, (f, n) ∈ (c.struct id).fields.zip sizes → HasSize c f.type n) :
    HasSize c (.mk (.struct id name) writtenAs) sizes.sum

/-- Values of the one type are laid out in those of the other, which are the same or have them as elements
or fields, to any depth. -/
inductive Within (c : Context) (part : Ty) : Ty → Prop
  | refl : Within c part part
  | element {element : Ty} (constant : Bool) (count : ℕ) (writtenAs : Option String)
    (h : Within c part element) : Within c part (.mk (.array element constant (some count)) writtenAs)
  | field {id : StructId} {f : Field} (name : String) (writtenAs : Option String)
    (hf : f ∈ (c.struct id).fields) (h : Within c part f.type) : Within c part (.mk (.struct id name) writtenAs)

/-- A type has no more than one size. -/
theorem HasSize.unique {m : ℕ} (hn : c.HasSize t n) (hm : c.HasSize t m) : n = m := by
  induction hn generalizing m with
  | array constant count writtenAs _ ih =>
    cases hm with
    | array _ _ _ h => rw [ih h]
  | @struct id sizes name writtenAs hlength hsizes ih =>
    cases hm with
    | struct _ _ hlength' hsizes' =>
      rename_i sizes'
      congr 1
      refine List.ext_getElem (hlength.trans hlength'.symm) fun i hi hi' => ?_
      have hif : i < (c.struct id).fields.length := hlength ▸ hi
      exact ih _ _ (getElem_mem_zip hif hi) (hsizes' _ _ (getElem_mem_zip hif hi'))
  | _ => cases hm; rfl

/-- A type has a size, and 64 bits can hold it and that of every part. -/
structure Fits (c : Context) (t : Ty) (n : ℕ) : Prop where
  size : c.HasSize t n
  parts : ∀ part, c.Within part t → ∃ m, c.HasSize part m ∧ m < wordBound

theorem Fits.lt (h : c.Fits t n) : n < wordBound := by
  obtain ⟨m, hm, hlt⟩ := h.parts t .refl
  rwa [h.size.unique hm]

/-- The parts of a type are the type itself and the parts of those inside of it. -/
theorem HasSize.fits (h : c.HasSize t n) (hlt : n < wordBound)
    (hinner : ∀ part, c.Within part t → part = t ∨ ∃ inner m, c.Within part inner ∧ c.Fits inner m) : c.Fits t n := by
  refine ⟨h, fun part hpart => ?_⟩
  obtain rfl | ⟨inner, m, hwithin, hfits⟩ := hinner part hpart
  · exact ⟨n, h, hlt⟩
  · exact hfits.parts part hwithin

theorem Fits.int (width : Width) (writtenAs : Option String) : c.Fits (.mk (.int width) writtenAs) (width.bits / 8) := by
  refine (HasSize.int width writtenAs).fits (by cases width <;> decide) fun part hpart => ?_
  cases hpart
  exact .inl rfl

theorem Fits.array {element : Ty} (constant : Bool) (count : ℕ) (writtenAs : Option String) (h : c.Fits element n)
    (hlt : count * n < wordBound) : c.Fits (.mk (.array element constant (some count)) writtenAs) (count * n) := by
  refine (HasSize.array constant count writtenAs h.size).fits hlt fun part hpart => ?_
  cases hpart with
  | refl => exact .inl rfl
  | element _ _ _ hpart => exact .inr ⟨element, n, hpart, h⟩

/-- Sizes of types are right if those of structs are. -/
theorem fits_of_sizeGiven {size : StructId → Option ℕ}
    (hsize : ∀ id n name writtenAs, size id = some n → c.Fits (.mk (.struct id name) writtenAs) n)
    (h : t.sizeGiven size = some n) : c.Fits t n := by
  induction t using Ty.sizeGiven.induct generalizing n with
  | case8 element constant count writtenAs ih =>
    obtain ⟨m, hm, hbounded⟩ := Option.bind_eq_some_iff.mp h
    obtain ⟨rfl, hlt⟩ := boundedSize_eq_some.mp hbounded
    exact (ih hm).array constant count writtenAs hlt
  | case9 id name writtenAs => exact hsize id n name writtenAs h
  | case1 width writtenAs =>
    obtain rfl := Option.some.inj h
    exact .int width writtenAs
  | _ =>
    obtain rfl := Option.some.inj h
    refine HasSize.fits (by constructor) (by decide) fun part hpart => ?_
    cases hpart
    exact .inl rfl

/-- What is worked out for a struct is its size, however deep structs are nested in it. -/
theorem fits_of_structSizeTo {k : ℕ} {id : StructId} (name : String) (writtenAs : Option String)
    (h : c.structSizeTo k id = some n) : c.Fits (.mk (.struct id name) writtenAs) n := by
  induction k generalizing id n name writtenAs with
  | zero => cases h
  | succ k ih =>
    obtain ⟨sizes, hfields, rfl, hlt⟩ := sumSizes_eq_some.mp h
    have hfits : List.Forall₂ (fun (f : Field) m => c.Fits f.type m) (c.struct id).fields sizes := by
      have heq : List.Forall₂ (fun (f : Field) m => f.type.sizeGiven (c.structSizeTo k) = some m)
          (c.struct id).fields sizes := by
        rw [← List.forall₂_map_right_iff (R := fun (f : Field) m => f.type.sizeGiven (c.structSizeTo k) = m),
          ← List.forall₂_map_left_iff (R := fun a b => a = b), List.forall₂_eq_eq_eq]
        exact hfields
      exact heq.imp fun f m hm => fits_of_sizeGiven (fun id m name writtenAs => ih name writtenAs) hm
    obtain ⟨hlength, hzip⟩ := List.forall₂_iff_zip.mp hfits
    refine (HasSize.struct name writtenAs hlength.symm fun f m hm => (hzip hm).size).fits hlt fun part hpart => ?_
    cases hpart with
    | refl => exact .inl rfl
    | field _ _ hf hpart =>
      rw [← List.map_fst_zip hlength.le] at hf
      obtain ⟨⟨f, m⟩, hm, rfl⟩ := List.mem_map.mp hf
      exact .inr ⟨f.type, m, hpart, hzip hm⟩

theorem fits_sizeOf? (h : c.sizeOf? t = some n) : c.Fits t n :=
  fits_of_sizeGiven (fun _ _ name writtenAs => fits_of_structSizeTo name writtenAs) h

/-- A size that 64 bits hold is worked out if that of each part is. -/
theorem CompletedIn.sizeOf?_of_hasSize {order : List StructId} (horder : c.CompletedIn order) (h : c.HasSize t n)
    (hparts : ∀ part m, c.Within part t → c.HasSize part m → m < wordBound) : c.sizeOf? t = some n := by
  induction h with
  | array constant count writtenAs helement ih =>
    have hsize := ih fun part m hpart => hparts part m (.element _ _ _ hpart)
    show (c.sizeOf? _).bind (fun m => boundedSize (count * m)) = _
    rw [hsize]
    exact boundedSize_eq_some.mpr ⟨rfl, hparts _ _ .refl (.array constant count writtenAs helement)⟩
  | @struct id sizes name writtenAs hlength hsizes ih =>
    rw [horder.sizeOf?_eq]
    refine sumSizes_eq_some.mpr ⟨sizes, ?_, rfl, hparts _ _ .refl (.struct name writtenAs hlength hsizes)⟩
    refine List.ext_getElem (by simpa using hlength.symm) fun i hi hi' => ?_
    rw [List.length_map] at hi hi'
    rw [List.getElem_map, List.getElem_map]
    exact ih _ _ (getElem_mem_zip hi hi') fun part m hpart => hparts part m (.field name writtenAs (List.getElem_mem hi) hpart)
  | _ => rfl

/-- A type has a size if the struct that it holds has one. -/
theorem exists_hasSize_of_held (h : ∀ id name writtenAs, t.heldStruct? = some id →
    ∃ n, c.HasSize (.mk (.struct id name) writtenAs) n) : ∃ n, c.HasSize t n := by
  induction t using Ty.sizeGiven.induct with
  | case8 element constant count writtenAs ih =>
    obtain ⟨n, hn⟩ := ih h
    exact ⟨count * n, .array constant count writtenAs hn⟩
  | case9 id name writtenAs => exact h id name writtenAs rfl
  | _ => exact ⟨_, by constructor⟩

/-- Structs do not contain themselves, so each has a size. -/
theorem CompletedIn.exists_hasSize {order : List StructId} (horder : c.CompletedIn order) (t : Ty) :
    ∃ n, c.HasSize t n := by
  have hstruct (id : StructId) (name : String) (writtenAs : Option String) :
      ∃ n, c.HasSize (.mk (.struct id name) writtenAs) n := by
    induction id using horder.wellFounded.induction generalizing name writtenAs with
    | _ id ih =>
      have hfield (f : Field) (hf : f ∈ (c.struct id).fields) : ∃ n, c.HasSize f.type n :=
        exists_hasSize_of_held fun inner name writtenAs hinner => ih inner ⟨f, hf, hinner⟩ name writtenAs
      choose! size hsize using hfield
      have hall : List.Forall₂ (fun (f : Field) n => c.HasSize f.type n) (c.struct id).fields
          ((c.struct id).fields.map size) := by
        rw [List.forall₂_map_right_iff, List.forall₂_same]
        exact hsize
      obtain ⟨hlength, hzip⟩ := List.forall₂_iff_zip.mp hall
      exact ⟨_, .struct name writtenAs hlength.symm fun f n hn => hzip hn⟩
  exact exists_hasSize_of_held fun id name writtenAs _ => hstruct id name writtenAs

end Context

namespace Session

/-- Layout sizes are exact. At every moment of a session each type has one size. If what is worked out with numbers
of 64 bits is a size, it is that one; and nothing is worked out exactly if the type, or one of those that its values
are made of, is too large for them. -/
theorem sizeOf?_exact {c : Context} (hc : Moment c) (t : Ty) : ∃ n, c.HasSize t n ∧
    (∀ m, c.sizeOf? t = some m → m = n) ∧
    (c.sizeOf? t = none ↔ ∃ part m, c.Within part t ∧ c.HasSize part m ∧ wordBound ≤ m) := by
  obtain ⟨order, horder⟩ := hc.completed
  obtain ⟨n, hn⟩ := horder.exists_hasSize t
  refine ⟨n, hn, fun m hm => (Context.fits_sizeOf? hm).size.unique hn, fun hnone => ?_, ?_⟩
  · by_contra hsmall
    push Not at hsmall
    rw [horder.sizeOf?_of_hasSize hn hsmall] at hnone
    cases hnone
  · rintro ⟨part, m, hpart, hm, hlarge⟩
    by_contra hsome
    obtain ⟨k, hk⟩ := Option.ne_none_iff_exists'.mp hsome
    obtain ⟨m', hm', hlt⟩ := (Context.fits_sizeOf? hk).parts part hpart
    rw [hm.unique hm'] at hlarge
    exact absurd hlt (by omega)

end Session

end OwnLang
