import Mathlib
import OwnLang.Proofs.Check.Entities
import OwnLang.Token.Lexer

/-!
# Symbols

The symbol of an entity is the path of its declaration; for an instance of a template, a dot and the
number of the instance stand behind it, and for a function of a struct, a dot and its name stand behind
the symbol of the struct. Names are words, so neither part of a path holds a dot or a colon, and no
name is a number: symbols can be taken apart again, and different functions and variables have different
ones (`Context.Labelled.symbol_inj`). A function that is defined elsewhere has its name for a symbol, which
is none of these.
-/

namespace OwnLang

/-! ## Words -/

/-- A name that a text can hold. -/
def IsWord (name : String) : Prop :=
  ∃ c rest, name.toList = c :: rest ∧ Lexeme.startsWord c = true ∧
    ∀ x ∈ rest, Lexeme.continuesWord x = true

theorem continuesWord_of_mem {name : String} (h : IsWord name) {x : Char} (hx : x ∈ name.toList) :
    Lexeme.continuesWord x = true := by
  obtain ⟨c, rest, hname, hstarts, hrest⟩ := h
  rw [hname] at hx
  rcases List.mem_cons.mp hx with rfl | hx
  · simp [Lexeme.continuesWord, hstarts]
  · exact hrest x hx

theorem IsWord.noDot {name : String} (h : IsWord name) : '.' ∉ name.toList :=
  fun hdot => absurd (continuesWord_of_mem h hdot) (by decide)

theorem IsWord.noColon {name : String} (h : IsWord name) : ':' ∉ name.toList :=
  fun hcolon => absurd (continuesWord_of_mem h hcolon) (by decide)

/-- No word ends a text that it stands in. -/
theorem IsWord.noNul {name : String} (h : IsWord name) : '\x00' ∉ name.toList :=
  fun hnul => absurd (continuesWord_of_mem h hnul) (by decide)

theorem isWord_of_all {name : String} {c : Char} {rest : List Char} (h : name.toList = c :: rest)
    (hall : (Lexeme.startsWord c && rest.all Lexeme.continuesWord) = true) : IsWord name :=
  ⟨c, rest, h, (Bool.and_eq_true_iff.mp hall).1, List.all_eq_true.mp (Bool.and_eq_true_iff.mp hall).2⟩

theorem isWord_main : IsWord "main" := isWord_of_all rfl rfl

theorem isDigit_of_mem_toString {k : Nat} {x : Char} (hx : x ∈ (toString k).toList) :
    x.isDigit = true := by
  refine Nat.isDigit_of_mem_toDigits (b := 10) (n := k) (by decide) (by decide) ?_
  exact (Nat.toList_repr (n := k)) ▸ hx

theorem toString_noDot (k : Nat) : '.' ∉ (toString k).toList :=
  fun hdot => absurd (isDigit_of_mem_toString hdot) (by decide)

/-- What starts a word is no digit. -/
theorem isDigit_eq_false_of_startsWord {c : Char} (h : Lexeme.startsWord c = true) :
    c.isDigit = false := by
  unfold Lexeme.startsWord at h
  rw [Bool.or_eq_true, beq_iff_eq] at h
  rcases h with h | rfl
  · simp only [Char.isAlpha, Char.isUpper, Char.isLower, Char.isDigit, Bool.or_eq_true,
      Bool.and_eq_true, Bool.and_eq_false_iff, decide_eq_true_eq, decide_eq_false_iff_not] at h ⊢
    grind
  · decide

/-- No word is a number. -/
theorem IsWord.ne_toString {name : String} (h : IsWord name) (k : Nat) : name ≠ toString k := by
  rintro rfl
  obtain ⟨c, rest, hname, hstarts, -⟩ := h
  have hdigit : c.isDigit = true := isDigit_of_mem_toString (hname ▸ List.mem_cons_self)
  rw [isDigit_eq_false_of_startsWord hstarts] at hdigit
  cases hdigit

/-! ## Parts of symbols -/

/-- A text can be taken apart at the last place of a sign. -/
theorem append_cons_inj {sign : Char} {l l' a b : List Char} (ha : sign ∉ a) (hb : sign ∉ b)
    (h : l ++ sign :: a = l' ++ sign :: b) : l = l' ∧ a = b := by
  rcases List.append_eq_append_iff.mp h with ⟨between, rfl, hbehind⟩ | ⟨between, rfl, hbehind⟩
  all_goals
    cases between with
    | nil => simp_all
    | cons x rest => simp_all

/-- What stands behind a dot. -/
def behindDot (base part : String) : String := base ++ "." ++ part

theorem behindDot_inj {base base' part part' : String} (h : '.' ∉ part.toList)
    (h' : '.' ∉ part'.toList) (heq : behindDot base part = behindDot base' part') :
    base = base' ∧ part = part' := by
  have htexts := congrArg String.toList heq
  simp only [behindDot, String.toList_append, List.append_assoc] at htexts
  obtain ⟨hbase, hpart⟩ := append_cons_inj h h' htexts
  exact ⟨String.toList_inj.mp hbase, String.toList_inj.mp hpart⟩

theorem mem_behindDot (base part : String) : '.' ∈ (behindDot base part).toList := by
  simp [behindDot]

/-- The path of a declaration. -/
def pathOf (package name : String) : String := package ++ "::" ++ name

theorem pathOf_noDot {package name : String} (h : '.' ∉ package.toList) (h' : IsWord name) :
    '.' ∉ (pathOf package name).toList := by
  simp [pathOf, h, h'.noDot]

theorem pathOf_inj {package package' name name' : String} (h : IsWord name) (h' : IsWord name')
    (heq : pathOf package name = pathOf package' name') : package = package' ∧ name = name' := by
  have htexts := congrArg String.toList heq
  simp only [pathOf, String.toList_append] at htexts
  have hsplit : (package.toList ++ [':']) ++ ':' :: name.toList =
      (package'.toList ++ [':']) ++ ':' :: name'.toList := by simpa using htexts
  obtain ⟨hpackage, hname⟩ := append_cons_inj h.noColon h'.noColon hsplit
  exact ⟨String.toList_inj.mp (List.append_cancel_right hpackage), String.toList_inj.mp hname⟩

theorem not_isWord_pathOf (package name : String) : ¬IsWord (pathOf package name) :=
  fun h => h.noColon (by simp [pathOf])

/-- The symbols of structs, and of the functions and variables of packages. Instances have numbers up to a bound, and
no word is one of them. -/
inductive Numbered (bound : Nat) : String → Prop
  | plain {path : String} (h : '.' ∉ path.toList) (hword : ¬IsWord path) : Numbered bound path
  | made {path : String} {k : Nat} (h : '.' ∉ path.toList) (hk : k ≤ bound) :
      Numbered bound (behindDot path (toString k))

namespace Numbered

variable {bound bound' : Nat} {symbol : String}

theorem mono (h : Numbered bound symbol) (hbound : bound ≤ bound') : Numbered bound' symbol := by
  cases h with
  | plain h hword => exact .plain h hword
  | made h hk => exact .made h (hk.trans hbound)

/-- No symbol has a number that was not given yet. -/
theorem ne_made (h : Numbered bound symbol) (path : String) {k : Nat} (hk : bound < k) :
    symbol ≠ behindDot path (toString k) := by
  rintro rfl
  generalize hsymbol : behindDot path (toString k) = symbol at h
  cases h with
  | plain h _ => exact h (hsymbol ▸ mem_behindDot _ _)
  | made h hk' =>
    obtain ⟨-, hnumber⟩ := behindDot_inj (toString_noDot _) (toString_noDot _) hsymbol
    have := Nat.repr_injective hnumber
    omega

/-- A function of a struct has another symbol than a function of a package. -/
theorem ne_method (h : Numbered bound symbol) (base : String) {name : String} (hname : IsWord name) :
    symbol ≠ behindDot base name := by
  rintro rfl
  generalize hsymbol : behindDot base name = symbol at h
  cases h with
  | plain h _ => exact h (hsymbol ▸ mem_behindDot _ _)
  | made h hk =>
    obtain ⟨-, hnumber⟩ := behindDot_inj hname.noDot (toString_noDot _) hsymbol
    exact hname.ne_toString _ hnumber

theorem ne_word (h : Numbered bound symbol) {name : String} (hname : IsWord name) : symbol ≠ name := by
  rintro rfl
  cases h with
  | plain _ hword => exact hword hname
  | made _ _ => exact hname.noDot (mem_behindDot _ _)

end Numbered

/-! ## Contexts -/

/-- A function with a body, which waits to be checked from its declaration on. -/
def Global.hasBody (g : Global) : Bool := g.fnDecl?.any (·.body.isSome)

/-- The struct that a function belongs to. -/
def Global.owner? (g : Global) : Option StructId :=
  match g.kind with
  | .function _ owner => owner
  | .storage _ => none

/-- The names of a declaration that become parts of symbols are words. -/
def Surface.ItemKind.Worded : Surface.ItemKind → Prop
  | .function decl => IsWord decl.name.name
  | .struct decl => IsWord decl.name.name ∧ ∀ method ∈ decl.methods, IsWord method.name.name
  | .global decl => IsWord decl.name.name
  | .typeAlias .. | .macroDecl _ => True

/-- The names that a struct is shown with are words. -/
structure Surface.StructDecl.Legible (decl : Surface.StructDecl) : Prop where
  name : IsWord decl.name.name
  fields : ∀ field ∈ decl.fields, IsWord field.name.name

/-- The names that structs are shown with, and those that macros are called by, are words. -/
def Surface.ItemKind.Legible : Surface.ItemKind → Prop
  | .struct decl => decl.Legible
  | .macroDecl decl => IsWord decl.name.name
  | .function _ | .global _ | .typeAlias .. => True

namespace Context

/-- The names of the functions of a struct. -/
def memberNames (c : Context) (id : StructId) : List Surface.Ident :=
  (c.struct id).members.map fun member => (c.global member.2).name

/-- A function is one of a struct's, and has its symbol from that of the struct. -/
structure Owns (c : Context) (owner : StructId) (id : GlobalId) : Prop where
  declared : owner.index < c.structs.size
  member : id ∈ (c.struct owner).members.map (·.2)
  symbol : (c.global id).symbol = behindDot (c.struct owner).symbol (c.global id).name.name
  word : IsWord (c.global id).name.name

/-- A function or variable whose symbol starts with a path, as all do but for the functions of packages that are
defined elsewhere. -/
def Pathed (c : Context) (id : GlobalId) : Prop :=
  id.index < c.globals.size ∧ ((c.global id).owner? = none → ¬(c.global id).isExternal)

/-- Every entity has a symbol of the form that is its own, instances with numbers up to a bound, and
the functions of a complete struct have different names. -/
structure Labelled (bound : Nat) (c : Context) : Prop where
  packages : ∀ id, '.' ∉ (c.package id).name.toList
  templates : ∀ id, (c.template id).item.kind.Worded
  structs : ∀ id, Numbered bound (c.struct id).symbol
  globals : ∀ id, c.Pathed id → (c.global id).owner? = none → Numbered bound (c.global id).symbol
  externals : ∀ id, (c.global id).owner? = none → (c.global id).isExternal → IsWord (c.global id).symbol
  methods : ∀ id owner, (c.global id).owner? = some owner → c.Owns owner id
  members : ∀ id, ∀ member ∈ (c.struct id).members, member.2.index < c.globals.size
  unclashing : ∀ id, (c.struct id).state = .complete → ((c.memberNames id).map (·.name)).Nodup

/-- Different structs, and different functions and variables of packages, have different symbols. -/
structure Apart (c : Context) : Prop where
  structs : ∀ id id' : StructId, id.index < c.structs.size → id'.index < c.structs.size →
    (c.struct id).symbol = (c.struct id').symbol → id = id'
  globals : ∀ id id', c.Pathed id → (c.global id).owner? = none → c.Pathed id' →
    (c.global id').owner? = none → (c.global id).symbol = (c.global id').symbol → id = id'

variable {c d : Context} {bound : Nat}

theorem not_isExternal_of_hasBody {g : Global} (h : g.hasBody) : ¬g.isExternal := by
  intro hexternal
  unfold Global.hasBody at h
  unfold Global.isExternal at hexternal
  cases hdecl : g.fnDecl? with
  | none =>
    rw [hdecl] at h
    cases h
  | some decl =>
    rw [hdecl, Option.any_some] at h hexternal
    rw [Option.isNone_iff_eq_none.mp hexternal] at h
    cases h

theorem pathed_of_hasBody {id : GlobalId} (h : (c.global id).hasBody) : c.Pathed id := by
  refine ⟨Nat.lt_of_not_le fun hle => ?_, fun _ => not_isExternal_of_hasBody h⟩
  rw [Check.global_of_size_le hle] at h
  cases h

/-- Different functions and variables have different symbols. -/
theorem Labelled.symbol_inj (h : c.Labelled bound) (hapart : c.Apart)
    (hcomplete : ∀ id : StructId, id.index < c.structs.size → (c.struct id).state = .complete)
    {id id' : GlobalId} (hid : c.Pathed id) (hid' : c.Pathed id')
    (hsymbol : (c.global id).symbol = (c.global id').symbol) : id = id' := by
  cases howner : (c.global id).owner? with
  | none =>
    cases howner' : (c.global id').owner? with
    | none => exact hapart.globals id id' hid howner hid' howner' hsymbol
    | some owner =>
      have howns := h.methods id' owner howner'
      exact absurd (hsymbol.trans howns.symbol)
        ((h.globals id hid howner).ne_method _ howns.word)
  | some owner =>
    have howns := h.methods id owner howner
    cases howner' : (c.global id').owner? with
    | none =>
      exact absurd (hsymbol.symm.trans howns.symbol)
        ((h.globals id' hid' howner').ne_method _ howns.word)
    | some owner' =>
      have howns' := h.methods id' owner' howner'
      obtain ⟨hstructs, hnames⟩ := behindDot_inj howns.word.noDot howns'.word.noDot
        (howns.symbol.symm.trans (hsymbol.trans howns'.symbol))
      obtain rfl := hapart.structs owner owner' howns.declared howns'.declared hstructs
      have hnodup := h.unclashing owner (hcomplete owner howns.declared)
      obtain ⟨member, hmember, rfl⟩ := List.mem_map.mp howns.member
      obtain ⟨member', hmember', rfl⟩ := List.mem_map.mp howns'.member
      rw [memberNames, List.map_map] at hnodup
      exact congrArg Prod.snd (List.inj_on_of_nodup_map hnodup hmember hmember' hnames)

/-- No symbol that starts with a path is a word, as `main` is and the names of the runtime are. -/
theorem Labelled.symbol_ne_word (h : c.Labelled bound) {id : GlobalId} (hid : c.Pathed id) {name : String}
    (hname : IsWord name) : (c.global id).symbol ≠ name := by
  cases howner : (c.global id).owner? with
  | none => exact (h.globals id hid howner).ne_word hname
  | some owner =>
    rintro rfl
    refine hname.noDot ?_
    rw [(h.methods id owner howner).symbol]
    exact mem_behindDot _ _

end Context

end OwnLang
