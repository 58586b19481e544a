import OwnLang.Ir.Text
import OwnLang.Proofs.Emit.Build
import OwnLang.Proofs.Token.Literal

/-!
# String constants

A module is built by a sequence of operations (`Operation.runAll`). The table of the string constants
is an invariant of such sequences (`Builder.Interned`): the texts of the table are different, and the
module has the constants of the table, in its order, and no others. Only `Build.string` changes the
table, and only for a text that it does not have.

A constant is read back by `unescape?`, which refuses what may not stand between the quotes as it is.
What `Global.text` writes is read as the bytes of the text and a zero byte (`unescape?_bytesText`).
Both together are `interns_runAll`.
-/

namespace OwnLang.Ir

/-! ## Operations -/

/-- The operations of a builder. -/
inductive Operation where
  | defineStruct (symbol : String) (fields : List Ty)
  | defineGlobal (name : String) (constant : Bool) (value : Operand)
  | string (text : String)
  | declare (declaration : Declaration)
  | beginFunction (name : String) (returns : Ty) (params : List Ty)
  | endFunction
  | newLabel
  | placeLabel (label : Label)
  | effect (instr : Instr)
  | result (type : Ty) (instr : Instr)
  | terminate (terminator : Terminator)
  | slot (type : Ty)
  | load (type : Ty) (address : Operand)
  | store (value address : Operand)
  | br (label : Label)
  | condBr (test : Operand) (yes no : Label)
  | ret (value : Option Operand)
  | call (returns : Ty) (callee : Ref) (args : List Operand) (signature : Option Ty)

/-- What an operation answers. -/
inductive Answer where
  | nothing
  | operand (v : Operand)
  | operands (vs : List Operand)
  | label (name : Label)

namespace Operation

/-- An operation as a step of building. -/
def run : Operation → Build Answer
  | defineStruct symbol fields => (fun _ => .nothing) <$> Build.defineStruct symbol fields
  | defineGlobal name constant value => (fun _ => .nothing) <$> Build.defineGlobal name constant value
  | string text => .operand <$> Build.string text
  | declare declaration => (fun _ => .nothing) <$> Build.declare declaration
  | beginFunction name returns params => .operands <$> Build.beginFunction name returns params
  | endFunction => (fun _ => .nothing) <$> Build.endFunction
  | newLabel => .label <$> Build.newLabel
  | placeLabel label => (fun _ => .nothing) <$> Build.placeLabel label
  | effect instr => (fun _ => .nothing) <$> Build.effect instr
  | result type instr => .operand <$> Build.result type instr
  | terminate terminator => (fun _ => .nothing) <$> Build.terminate terminator
  | slot type => .operand <$> Build.slot type
  | load type address => .operand <$> Build.load type address
  | store value address => (fun _ => .nothing) <$> Build.store value address
  | br label => (fun _ => .nothing) <$> Build.br label
  | condBr test yes no => (fun _ => .nothing) <$> Build.condBr test yes no
  | ret value => (fun _ => .nothing) <$> Build.ret value
  | call returns callee args signature => .operand <$> Build.call returns callee args signature

/-- Operations one after another, with their answers. -/
def runAll : List Operation → Build (List Answer)
  | [] => return []
  | operation :: rest => do
    let answer ← operation.run
    let answers ← runAll rest
    return answer :: answers

end Operation

/-! ## The table of the string constants -/

/-- The text and the number of a string constant. -/
def Global.constant? : Global → Option (String × Nat)
  | named _ _ _ => none
  | string number text => some (text, number)

/-- The texts and the numbers of a module's string constants. -/
def Module.constants (m : Module) : List (String × Nat) := m.globals.toList.filterMap Global.constant?

theorem Module.mem_constants {m : Module} {text : String} {number : Nat} :
    (text, number) ∈ m.constants ↔ .string number text ∈ m.globals := by
  have hsame : ∀ g : Global, g.constant? = some (text, number) ↔ g = .string number text := by
    rintro (⟨name, constant, value⟩ | ⟨n, t⟩)
    · simp [Global.constant?]
    · simp [Global.constant?, and_comm]
  simp [constants, hsame]

/-- The texts of a builder are different, and they are those of the module's string constants. -/
structure Builder.Interned (b : Builder) : Prop where
  distinct : b.strings.toList.Nodup
  constants : b.module.constants = b.strings.toList.zipIdx

namespace Build

variable {α β : Type}

/-- A step that leaves the string constants alone. -/
def Spares (x : Build α) : Prop :=
  ∀ b, (x b).2.strings = b.strings ∧ (x b).2.module.constants = b.module.constants

theorem spares_pure (a : α) : Spares (pure a : Build α) := fun _ => ⟨rfl, rfl⟩

theorem spares_bind {x : Build α} {f : α → Build β} (hx : Spares x) (hf : ∀ a, Spares (f a)) :
    Spares (x >>= f) := by
  intro b
  obtain ⟨hstrings, hconstants⟩ := hf (x b).1 (x b).2
  rw [bind_apply]
  exact ⟨hstrings.trans (hx b).1, hconstants.trans (hx b).2⟩

theorem spares_modify {f : Builder → Builder} (hstrings : ∀ b, (f b).strings = b.strings)
    (hconstants : ∀ b, (f b).module.constants = b.module.constants) : Spares (modify f) :=
  fun b => ⟨hstrings b, hconstants b⟩

theorem spares_newLabel : Spares newLabel := fun _ => ⟨rfl, rfl⟩

theorem spares_newTemp : Spares newTemp := by
  intro b
  rw [newTemp_apply]
  exact ⟨rfl, rfl⟩

theorem spares_push (line : Line) : Spares (push line) := by
  intro b
  rw [push_apply, opened]
  split <;> exact ⟨rfl, rfl⟩

theorem spares_terminate (terminator : Terminator) : Spares (terminate terminator) :=
  spares_bind (spares_push _) fun _ => spares_modify (fun _ => rfl) fun _ => rfl

theorem spares_placeLabel (label : Label) : Spares (placeLabel label) := by
  intro b
  rw [placeLabel_apply]
  split
  · exact ⟨rfl, rfl⟩
  · exact spares_terminate (.br label) b

theorem spares_endFunction : Spares endFunction := by
  intro b
  cases hf : b.function with
  | some f =>
    rw [endFunction_apply hf]
    exact ⟨rfl, rfl⟩
  | none => simp [endFunction, bind_apply, get_apply, modify_apply, Builder.isTerminated, hf]

theorem spares_result (type : Ty) (instr : Instr) : Spares (result type instr) := by
  refine spares_bind spares_newTemp fun temp => ?_
  cases temp with
  | some number => exact spares_bind (spares_push _) fun _ => spares_pure _
  | none => exact spares_bind (spares_push _) fun _ => spares_pure _

theorem spares_slot (type : Ty) : Spares (slot type) := by
  refine spares_bind spares_newTemp fun temp => ?_
  cases temp with
  | some number => exact spares_bind (spares_modify (fun _ => rfl) fun _ => rfl) fun _ => spares_pure _
  | none => exact spares_pure _

theorem spares_call (returns : Ty) (callee : Ref) (args : List Operand) (signature : Option Ty) :
    Spares (call returns callee args signature) := by
  unfold call
  split
  · exact spares_bind (spares_push _) fun _ => spares_pure _
  · exact spares_result _ _

theorem spares_declare (declaration : Declaration) : Spares (declare declaration) := by
  refine spares_modify (fun b => ?_) fun b => ?_ <;>
  · dsimp only
    split <;> rfl

theorem spares_defineGlobal (name : String) (constant : Bool) (value : Operand) :
    Spares (defineGlobal name constant value) := by
  refine spares_modify (fun b => rfl) fun b => ?_
  simp [Module.constants, Global.constant?]

/-- Asking for a text answers its number in a table that holds the text. -/
theorem interned_string {b : Builder} (h : b.Interned) (text : String) :
    (string text b).2.Interned ∧ Begins b.strings (string text b).2.strings ∧
      ∃ number, (string text b).1 = ⟨.ptr, .string number⟩ ∧ (string text b).2.strings[number]? = some text ∧
        ∀ t ∈ (string text b).2.strings, t ∈ b.strings ∨ t = text := by
  rw [string_apply]
  cases hfound : b.strings.findIdx? (· == text) with
  | some number =>
    obtain ⟨hbound, hsame, -⟩ := Array.findIdx?_eq_some_iff_getElem.mp hfound
    refine ⟨h, .refl _, number, rfl, ?_, fun t ht => .inl ht⟩
    rw [Array.getElem?_eq_getElem hbound, eq_of_beq hsame]
  | none =>
    have hnew : ∀ t ∈ b.strings, t ≠ text := by simpa [Array.findIdx?_eq_none_iff] using hfound
    refine ⟨⟨?_, ?_⟩, .push _ _, b.strings.size, rfl, by simp, ?_⟩
    · rw [Array.toList_push, List.nodup_append]
      refine ⟨h.distinct, List.nodup_singleton _, fun t ht t' ht' => ?_⟩
      rw [List.mem_singleton.mp ht']
      exact hnew t (Array.mem_toList_iff.mp ht)
    · have hconstants := h.constants
      simp only [Module.constants] at hconstants
      simp [Module.constants, Global.constant?, hconstants, List.zipIdx_append]
    · intro t ht
      simpa using ht

end Build

namespace Operation

/-- Any other operation leaves the string constants alone. -/
theorem spares_run {operation : Operation} (h : ∀ text, operation ≠ .string text) : Build.Spares operation.run := by
  cases operation with
  | string text => exact absurd rfl (h text)
  | defineStruct symbol fields => exact Build.spares_modify (fun _ => rfl) fun _ => rfl
  | defineGlobal name constant value => exact Build.spares_defineGlobal name constant value
  | declare declaration => exact Build.spares_declare declaration
  | beginFunction name returns params => exact fun _ => ⟨rfl, rfl⟩
  | endFunction => exact Build.spares_endFunction
  | newLabel => exact Build.spares_newLabel
  | placeLabel label => exact Build.spares_placeLabel label
  | effect instr => exact Build.spares_push _
  | result type instr => exact Build.spares_result type instr
  | terminate terminator => exact Build.spares_terminate terminator
  | slot type => exact Build.spares_slot type
  | load type address => exact Build.spares_result _ _
  | store value address => exact Build.spares_push _
  | br label => exact Build.spares_terminate _
  | condBr test yes no => exact Build.spares_terminate _
  | ret value => exact Build.spares_terminate _
  | call returns callee args signature => exact Build.spares_call returns callee args signature

/-- A text that was asked for has the number of the answer. -/
def Answered (strings : Array String) : Operation → Answer → Prop
  | .string text, answer => ∃ number, answer = .operand ⟨.ptr, .string number⟩ ∧ strings[number]? = some text
  | _, _ => True

theorem Answered.mono {strings strings' : Array String} (h : Begins strings strings') {operation : Operation}
    {answer : Answer} (ha : operation.Answered strings answer) : operation.Answered strings' answer := by
  cases operation with
  | string text =>
    obtain ⟨number, hanswer, htext⟩ := ha
    exact ⟨number, hanswer, h _ _ htext⟩
  | _ => trivial

/-- One operation: the table stays one, and it has what is asked for. -/
theorem interned_run {b : Builder} (h : b.Interned) (operation : Operation) :
    (operation.run b).2.Interned ∧ Begins b.strings (operation.run b).2.strings ∧
      operation.Answered (operation.run b).2.strings (operation.run b).1 ∧
      ∀ t ∈ (operation.run b).2.strings, t ∈ b.strings ∨ operation = .string t := by
  by_cases hstring : ∃ text, operation = .string text
  · obtain ⟨text, rfl⟩ := hstring
    obtain ⟨hinterned, hbegins, number, hanswer, htext, hold⟩ := Build.interned_string h text
    refine ⟨hinterned, hbegins, ⟨number, congrArg Answer.operand hanswer, htext⟩, fun t ht => ?_⟩
    exact (hold t ht).imp id fun heq => by rw [heq]
  · have hother : ∀ text, operation ≠ .string text := fun text heq => hstring ⟨text, heq⟩
    obtain ⟨hstrings, hconstants⟩ := spares_run hother b
    refine ⟨⟨by rw [hstrings]; exact h.distinct, by rw [hstrings, hconstants]; exact h.constants⟩,
      by rw [hstrings]; exact .refl _, ?_, fun t ht => .inl (by rwa [hstrings] at ht)⟩
    cases operation with
    | string text => exact absurd rfl (hother text)
    | _ => trivial

/-- All operations of a sequence, by induction on it: the table stays one, and it has what any of them
asks for and nothing else that is new. -/
theorem interned_runAll {b : Builder} (h : b.Interned) (operations : List Operation) :
    (runAll operations b).2.Interned ∧ Begins b.strings (runAll operations b).2.strings ∧
      List.Forall₂ (Answered (runAll operations b).2.strings) operations (runAll operations b).1 ∧
      ∀ t ∈ (runAll operations b).2.strings, t ∈ b.strings ∨ .string t ∈ operations := by
  induction operations generalizing b with
  | nil => exact ⟨h, .refl _, .nil, fun t ht => .inl ht⟩
  | cons operation rest ih =>
    obtain ⟨hinterned, hbegins, hanswered, hold⟩ := interned_run h operation
    obtain ⟨hinterned', hbegins', hrest, hold'⟩ := ih hinterned
    refine ⟨hinterned', hbegins.trans hbegins', .cons (hanswered.mono hbegins') hrest, fun t ht => ?_⟩
    rcases hold' t ht with ht | ht
    · exact (hold t ht).imp id fun heq => by simp [heq]
    · exact .inr (List.mem_cons_of_mem _ ht)

end Operation

/-! ## Reading constants back -/

/-- The bytes that stand between the quotes of a string constant: a backslash with two digits is the
byte of that number, and printable ASCII other than a quote stands for itself. Nothing else may stand
there. -/
def unescape? : List Char → Option (List UInt8)
  | [] => some []
  | '\\' :: a :: b :: rest => do
    let m ← Quoted.hexDigit? a
    let n ← Quoted.hexDigit? b
    return .ofNat (16 * m + n) :: (← unescape? rest)
  | c :: rest =>
    if 0x20 ≤ c.toNat ∧ c.toNat ≤ 0x7e ∧ c ≠ '"' ∧ c ≠ '\\' then
      (unescape? rest).map (.ofNat c.toNat :: ·)
    else none

theorem unescape?_plain {c : Char} (hlo : 0x20 ≤ c.toNat) (hhi : c.toNat ≤ 0x7e) (hquote : c ≠ '"')
    (hbackslash : c ≠ '\\') (rest : List Char) :
    unescape? (c :: rest) = (unescape? rest).map (.ofNat c.toNat :: ·) := by
  rw [unescape?.eq_def]
  simp [hlo, hhi, hquote, hbackslash]

theorem unescape?_byteText (b : UInt8) (rest : List Char) :
    unescape? (byteText b ++ rest) = (unescape? rest).map (b :: ·) := by
  have hbyte := b.toNat_lt
  unfold byteText
  split
  · rename_i hplain
    simp only [isPlainByte, Bool.and_eq_true, decide_eq_true_eq, bne_iff_ne, UInt8.le_iff_toNat_le,
      ne_eq, ← UInt8.toNat_inj] at hplain
    obtain ⟨⟨⟨hlo, hhi⟩, hquote⟩, hbackslash⟩ := hplain
    have hcode : (Char.ofNat b.toNat).toNat = b.toNat := Quoted.toNat_ofNat_of_lt hbyte
    rw [List.singleton_append, unescape?_plain, hcode, UInt8.ofNat_toNat]
    · rwa [hcode]
    · rwa [hcode]
    · exact fun heq => hquote (by rw [← hcode, heq]; rfl)
    · exact fun heq => hbackslash (by rw [← hcode, heq]; rfl)
  · have hdigits : ∀ n < 16, Quoted.hexDigit? (hexDigit n) = some n := by decide
    have hnumber : UInt8.ofNat (16 * (b.toNat / 16) + b.toNat % 16) = b := by
      rw [Nat.div_add_mod, UInt8.ofNat_toNat]
    simp only [List.cons_append, List.nil_append, unescape?, hdigits _ (show b.toNat / 16 < 16 by omega),
      hdigits _ (show b.toNat % 16 < 16 by omega), Option.bind_eq_bind, Option.bind_some, hnumber]
    cases unescape? rest <;> rfl

theorem unescape?_flatMap (bytes : List UInt8) (rest : List Char) :
    unescape? (bytes.flatMap byteText ++ rest) = (unescape? rest).map (bytes ++ ·) := by
  induction bytes with
  | nil => simp
  | cons b bytes ih =>
    rw [List.flatMap_cons, List.append_assoc, unescape?_byteText, ih, Option.map_map]
    rfl

/-- The text of a string constant: its name, its length, and between the quotes the bytes of its text and
a zero byte. -/
def Global.Writes (number : Nat) (text : String) (line : String) : Prop :=
  ∃ body : List Char,
    line = (Ref.string number).text ++ " = private unnamed_addr constant [" ++
      toString (utf8 text ++ [0]).length ++ " x i8] c\"" ++ String.ofList body ++ "\"" ∧
    unescape? body = some (utf8 text ++ [0])

theorem Global.writes_text (number : Nat) (text : String) :
    Global.Writes number text (Global.string number text).text := by
  refine ⟨(utf8 text).flatMap byteText ++ "\\00".toList, ?_, ?_⟩
  · simp [Global.text, bytesText, String.append_assoc]
  · have hzero : unescape? "\\00".toList = some [0] := by decide
    rw [unescape?_flatMap, hzero]
    rfl

/-! ## ASCII -/

theorem utf8_ofList (text : List Char) : utf8 (String.ofList text) = text.flatMap String.utf8EncodeChar := by
  show (String.ofList text).toByteArray.data.toList = _
  rw [String.toByteArray_ofList]
  simp [List.utf8Encode]

theorem utf8EncodeChar_of_ascii {c : Char} (h : c.toNat < 128) : String.utf8EncodeChar c = [.ofNat c.toNat] := by
  have hsize : c.utf8Size = 1 := by
    rw [Char.utf8Size_eq_one_iff, UInt32.le_iff_toNat_le, Char.toNat_val]
    exact Nat.le_of_lt_succ h
  rw [String.utf8EncodeChar_eq_singleton hsize]
  rfl

/-- The characters of ASCII are the bytes of their numbers. -/
theorem utf8_of_ascii {text : List Char} (h : ∀ c ∈ text, c.toNat < 128) :
    utf8 (String.ofList text) = text.map fun c => .ofNat c.toNat := by
  rw [utf8_ofList, List.map_eq_flatMap]
  exact List.flatMap_congr fun c hc => utf8EncodeChar_of_ascii (h c hc)

/-- A text has one byte for each character just if it is ASCII: the characters from U+0080 on, which an
escape of two digits may stand for, take two bytes and more. -/
theorem length_utf8_eq_iff {text : List Char} :
    (utf8 (String.ofList text)).length = text.length ↔ ∀ c ∈ text, c.toNat < 128 := by
  constructor
  · rw [utf8_ofList]
    induction text with
    | nil => simp
    | cons c text ih =>
      have hc := c.utf8Size_pos
      have hmore : text.length ≤ (text.flatMap String.utf8EncodeChar).length := by
        rw [List.length_flatMap]
        refine le_of_eq_of_le ?_ (List.card_nsmul_le_sum _ 1 fun n hn => ?_)
        · simp
        · obtain ⟨c', -, rfl⟩ := List.mem_map.mp hn
          rw [String.length_utf8EncodeChar]
          exact c'.utf8Size_pos
      intro hlength
      simp only [List.flatMap_cons, List.length_append, String.length_utf8EncodeChar, List.length_cons] at hlength
      have hone : c.utf8Size = 1 := by omega
      rw [Char.utf8Size_eq_one_iff, UInt32.le_iff_toNat_le, Char.toNat_val] at hone
      exact List.forall_mem_cons.mpr ⟨Nat.lt_succ_of_le hone, ih (by omega)⟩
  · intro h
    rw [utf8_of_ascii h, List.length_map]

/-! ## Modules -/

theorem Ref.text_string_injective : Function.Injective fun number => (Ref.string number).text := by
  intro m n h
  have hname : "@.str." ++ toString m = "@.str." ++ toString n := h
  exact Nat.repr_injective (String.append_right_inj _ |>.mp hname)

/-- The string constants of a module that a sequence of operations has built, for its answers. -/
structure Module.Interns (m : Module) (operations : List Operation) (answers : List Answer) : Prop where
  /-- Two texts have one operand just if they are equal. -/
  operands : ∀ (i j : Nat) (text text' : String), operations[i]? = some (.string text) →
    operations[j]? = some (.string text') → (answers[i]? = answers[j]? ↔ text = text')
  /-- Each text that was asked for has one constant, under the number that was answered. -/
  unique : ∀ (i : Nat) (text : String), operations[i]? = some (.string text) → ∃ number,
    answers[i]? = some (.operand ⟨.ptr, .string number⟩) ∧
      m.constants.filter (·.1 = text) = [(text, number)]
  /-- There are no constants but those that were asked for. -/
  asked : ∀ x ∈ m.constants, .string x.1 ∈ operations
  names : (m.constants.map fun x => (Ref.string x.2).text).Nodup
  lines : ∀ number text, .string number text ∈ m.globals →
    Global.Writes number text (Global.string number text).text

namespace Builder.Interned

variable {b : Builder}

theorem mem_constants (h : b.Interned) {text : String} {number : Nat} :
    (text, number) ∈ b.module.constants ↔ b.strings[number]? = some text := by
  rw [h.constants, List.mem_zipIdx_iff_getElem?, Array.getElem?_toList]

/-- A text of the table has one number. -/
theorem number_unique (h : b.Interned) {text : String} {m n : Nat} (hm : b.strings[m]? = some text)
    (hn : b.strings[n]? = some text) : m = n := by
  rw [← Array.getElem?_toList] at hm hn
  exact (List.getElem?_inj (List.getElem?_eq_some_iff.mp hm).1 h.distinct).mp (hm.trans hn.symm)

theorem numbers_nodup (h : b.Interned) : (b.module.constants.map (·.2)).Nodup := by
  rw [h.constants, List.zipIdx_map_snd]
  exact List.nodup_range'

theorem filter_constants (h : b.Interned) {text : String} {number : Nat} (hnumber : b.strings[number]? = some text) :
    b.module.constants.filter (·.1 = text) = [(text, number)] := by
  have hnodup : (b.module.constants.filter (·.1 = text)).Nodup := (h.numbers_nodup.of_map _).filter _
  refine List.perm_singleton.mp ((List.perm_ext_iff_of_nodup hnodup (List.nodup_singleton _)).mpr ?_)
  rintro ⟨text', n⟩
  simp only [List.mem_filter, h.mem_constants, decide_eq_true_eq, List.mem_singleton, Prod.mk.injEq]
  constructor
  · rintro ⟨hn, rfl⟩
    exact ⟨rfl, h.number_unique hn hnumber⟩
  · rintro ⟨rfl, rfl⟩
    exact ⟨hnumber, rfl⟩

end Builder.Interned

/-- After any operations, the string constants are those that were asked for, each text has one and each
has a name of its own, and each is written as the bytes of its text. -/
theorem interns_runAll (operations : List Operation) :
    (Operation.runAll operations {}).2.module.Interns operations (Operation.runAll operations {}).1 := by
  have hempty : ({} : Builder).Interned := ⟨List.nodup_nil, rfl⟩
  obtain ⟨hinterned, -, hanswered, hold⟩ := Operation.interned_runAll hempty operations
  generalize Operation.runAll operations {} = built at hinterned hanswered hold
  obtain ⟨answers, b⟩ := built
  have hasked (i : Nat) (text : String) (hi : operations[i]? = some (.string text)) :
      ∃ number, answers[i]? = some (.operand ⟨.ptr, .string number⟩) ∧ b.strings[number]? = some text := by
    obtain ⟨hbound, hget⟩ := List.getElem?_eq_some_iff.mp hi
    have hbound' : i < answers.length := hanswered.length_eq ▸ hbound
    have hone := hanswered.get hbound hbound'
    rw [List.get_eq_getElem, hget] at hone
    obtain ⟨number, hanswer, htext⟩ := hone
    exact ⟨number, by rw [List.getElem?_eq_getElem hbound', ← hanswer]; rfl, htext⟩
  refine ⟨fun i j text text' hi hj => ?_, fun i text hi => ?_, fun x hx => ?_, ?_, fun number text _ =>
    Global.writes_text number text⟩
  · obtain ⟨m, hm, htext⟩ := hasked i text hi
    obtain ⟨n, hn, htext'⟩ := hasked j text' hj
    rw [hm, hn]
    constructor
    · intro hsame
      cases hsame
      exact Option.some_inj.mp (htext.symm.trans htext')
    · rintro rfl
      rw [hinterned.number_unique htext htext']
  · obtain ⟨number, hanswer, htext⟩ := hasked i text hi
    exact ⟨number, hanswer, hinterned.filter_constants htext⟩
  · have htext := hinterned.mem_constants.mp hx
    exact (hold _ (Array.mem_of_getElem? htext)).resolve_left (Array.not_mem_empty _)
  · have hnames := hinterned.numbers_nodup.map Ref.text_string_injective
    rwa [List.map_map] at hnames

end OwnLang.Ir
