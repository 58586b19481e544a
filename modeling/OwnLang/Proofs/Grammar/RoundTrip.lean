import OwnLang.Proofs.Grammar.ReadsStmt

/-!
# Reading files back

What is printed is read back: `parseTokens` takes the tokens of a printed file, whatever their places,
up to the `eof` behind them, and returns the file it was printed from, up to places.
-/

namespace OwnLang.Grammar

open Surface Parse
open TokenKind (sign)

variable {sub : Readers} {text rest : List BareToken}

/-- The readers `sub` read back every node that has a spelling. -/
structure ReadsAll (sub : Readers) : Prop where
  expr : ∀ e : Expr, e.WellFormed → ReadsExpr sub e
  type : ∀ t : TypeExpr, t.WellFormed → ReadsType sub t
  block : ∀ b : Block, b.WellFormed → ReadsBlock sub b

theorem readsAll_rule : ReadsAll rule where
  expr e hwf := (readsNodes_rule _).terms.expr e hwf le_rfl
  type t hwf := (readsNodes_rule _).terms.type t hwf le_rfl
  block b hwf := (readsNodes_rule _).block b hwf le_rfl

/-! ## Functions -/

theorem reads_param (h : ReadsAll sub) {p : Param} (hwf : p.type.WellFormed) :
    ReadsListed (param sub) .closeParen p.print fun p' => p'.bare = p.bare := by
  intro t more ht
  refine (reads_ident p.name).take fun name hname => (reads_expect (t := sign .colon)).take fun _ _ => ?_
  refine (h.type p.type hwf .lowest _ rfl ?_).last fun type htype => reads_pure (by rw [Param.bare, Param.bare, hname, htype])
  rcases ht with ht | ht <;> exact heads_cons (by rw [ht]; trivial) more

theorem reads_fnBody (h : ReadsAll sub) {body : Option Block} (hwf : ∀ b ∈ body, b.WellFormed) :
    Reads (fnBody sub) (printBody body) rest fun body' => body'.map Block.bare = body.map Block.bare := by
  cases body with
  | none =>
    refine (reads_eat (t := sign .semicolon)).last fun eaten heaten => ?_
    subst heaten
    exact reads_pure rfl
  | some b =>
    refine (reads_eat_other (by simp [printBody, headKind_block])).look fun eaten heaten => ?_
    subst heaten
    exact (h.block b (hwf b rfl) rest).map fun b' hb => congrArg some hb

theorem heads_body {body : Option Block} : Heads endsType (printBody body ++ rest) := by
  cases body with
  | none => exact heads_cons trivial _
  | some b => exact ⟨.openCurly, headKind_block b rest, trivial⟩

theorem reads_fnDecl (h : ReadsAll sub) {d : FnDecl} (hwf : d.WellFormed) :
    Reads (fnDecl sub d.kind) d.print rest fun d' => d'.bare = d.bare := by
  obtain ⟨hparams, hreturns, hbody⟩ := hwf
  refine (reads_expect (t := sign .kwFn)).take fun start _ => (reads_ident d.name).take fun name hname => ?_
  refine (reads_expect (t := sign .openParen)).take fun _ _ => ?_
  refine (reads_parameters d.params Param.print d.variadic Param.bare Param.bare
    (fun p _ => ⟨.identifier, rfl, by decide, by decide⟩) fun p hp => reads_param h (hparams p hp)).seq fun params hread => ?_
  refine (reads_writtenType (fun t ht => h.type t (hreturns t ht)) heads_body).seq fun returns hreturns => ?_
  refine (reads_fnBody h hbody).last fun body hbody => reads_place _ fun span => ?_
  simp [FnDecl.bare, hname, hread, hreturns, hbody]

/-! ## Structs -/

namespace StructPart

/-- A part of a struct's body as tokens. -/
def print : StructPart → List BareToken
  | field d => d.print ++ [sign .semicolon]
  | method d => d.printMember

/-- A part of a struct's body without places. -/
def bare : StructPart → StructPart
  | field d => field d.bare
  | method d => method d.bare

/-- A part of a struct's body that has a spelling. -/
def WellFormed : StructPart → Prop
  | field d => d.WellFormedField
  | method d => d.WellFormed ∧ d.kind ≠ .plain

end StructPart

theorem reads_field (h : ReadsAll sub) {d : VarDecl} (hwf : d.WellFormedField) :
    Reads (field sub) (d.print ++ [sign .semicolon]) rest fun d' => d'.bare = d.bare := by
  obtain ⟨name, constant, type, value⟩ := d
  obtain ⟨⟨hwftype, hwfvalue⟩, hwritten⟩ := hwf
  simp only [VarDecl.print, List.cons_append, List.append_assoc]
  refine reads_advance.take fun token htoken => (reads_ident name).take fun name' hname => ?_
  have hconstant : (token.kind = .kwConst : Bool) = constant := kind_of_declaration htoken
  have hends : Heads endsExpr (sign .semicolon :: rest) := heads_cons trivial _
  have htail : Heads endsType ((printInitializer value ++ [sign .semicolon]) ++ rest) := by
    rw [List.append_assoc]
    exact heads_initializer hends
  refine (reads_writtenType (fun t ht => h.type t (hwftype t ht)) htail).seq fun type' htype => ?_
  refine (reads_initializer (fun v hv => h.expr v (hwfvalue v hv)) hends).seq fun value' hvalue => ?_
  have hmissing : ¬(type.isNone && value.isNone) = true := by
    cases value with
    | some value => simp
    | none =>
      have htyped : type ≠ none := hwritten rfl
      simp [htyped]
  rw [isNone_of_map_eq htype, isNone_of_map_eq hvalue, if_neg hmissing]
  refine (reads_expect (t := sign .semicolon)).last fun _ _ => reads_pure ?_
  simp [VarDecl.bare, hname, htype, hvalue, hconstant]

theorem reads_structPart (h : ReadsAll sub) {part : StructPart} (hwf : part.WellFormed) :
    Reads (structPart sub) part.print rest fun part' => part'.bare = part.bare := by
  cases part with
  | field d =>
    have hread : Reads (StructPart.field <$> field sub) (d.print ++ [sign .semicolon]) rest
        fun part' => part'.bare = (StructPart.field d).bare :=
      (reads_field h hwf).map fun d' hd => congrArg StructPart.field hd
    obtain ⟨name, constant, type, value⟩ := d
    cases constant with
    | true => exact reads_kind .kwConst rfl (reads_peek (t := name.print) rfl hread)
    | false => exact reads_kind .kwVar rfl (reads_peek (t := name.print) rfl hread)
  | method d =>
    obtain ⟨hwf, hkind⟩ := hwf
    have hread : Reads (StructPart.method <$> fnDecl sub d.kind) d.print rest
        fun part' => part'.bare = (StructPart.method d).bare :=
      (reads_fnDecl h hwf).map fun d' hd => congrArg StructPart.method hd
    rw [StructPart.print, FnDecl.printMember]
    cases hd : d.kind with
    | plain => exact absurd hd hkind
    | method =>
      rw [hd] at hread
      exact reads_kind .kwFn rfl (reads_peek_any fun _ => hread)
    | constMethod =>
      rw [hd] at hread
      exact reads_kind .kwConst rfl (reads_peek (t := sign .kwFn) rfl (reads_advance.take fun _ _ => hread))
    | static =>
      rw [hd] at hread
      exact reads_kind .kwStatic rfl (reads_peek_any fun _ => reads_advance.take fun _ _ => hread)

theorem heads_structPart {part : StructPart} (hwf : part.WellFormed) : Heads (· ≠ .closeCurly) part.print := by
  cases part with
  | field d =>
    obtain ⟨name, constant, type, value⟩ := d
    cases constant
    · exact heads_cons (show TokenKind.kwVar ≠ .closeCurly by decide) _
    · exact heads_cons (show TokenKind.kwConst ≠ .closeCurly by decide) _
  | method d =>
    rw [StructPart.print, FnDecl.printMember]
    split <;> exact heads_cons (by decide) _

/-- The fields and then the functions of a struct. -/
def partsOf (d : StructDecl) : List StructPart := d.fields.map .field ++ d.methods.map .method

theorem wellFormed_partsOf {d : StructDecl} (hwf : d.WellFormed) : ∀ part ∈ partsOf d, part.WellFormed := by
  intro part hpart
  rcases List.mem_append.mp hpart with hpart | hpart
  · obtain ⟨f, hf, rfl⟩ := List.mem_map.mp hpart
    exact hwf.1 f hf
  · obtain ⟨m, hm, rfl⟩ := List.mem_map.mp hpart
    exact hwf.2 m hm

/-- Fields and functions can be told apart without their places. -/
theorem filterMap_parts {parts : List StructPart} {d : StructDecl}
    (h : parts.map StructPart.bare = (partsOf d).map StructPart.bare) :
    (parts.filterMap fun | .field d => some d | .method _ => none).map VarDecl.bare = d.fields.map VarDecl.bare ∧
      (parts.filterMap fun | .field _ => none | .method d => some d).map FnDecl.bare =
        d.methods.map FnDecl.bare := by
  have hfields : ∀ l : List StructPart, (l.filterMap fun | .field d => some d | .method _ => none).map VarDecl.bare =
      (l.map StructPart.bare).filterMap fun | .field d => some d | .method _ => none := by
    intro l
    induction l with
    | nil => rfl
    | cons part l ih => cases part <;> simp [StructPart.bare, ih]
  have hmethods : ∀ l : List StructPart, (l.filterMap fun | .field _ => none | .method d => some d).map FnDecl.bare =
      (l.map StructPart.bare).filterMap fun | .field _ => none | .method d => some d := by
    intro l
    induction l with
    | nil => rfl
    | cons part l ih => cases part <;> simp [StructPart.bare, ih]
  rw [hfields, hmethods, h]
  simp [partsOf, StructPart.bare, List.filterMap_map, Function.comp_def]

theorem reads_structDecl (h : ReadsAll sub) {d : StructDecl} (hwf : d.WellFormed) :
    Reads (structDecl sub) d.print rest fun d' => d'.bare = d.bare := by
  refine (reads_expect (t := sign .kwStruct)).take fun _ _ => (reads_ident d.name).take fun name hname => ?_
  refine (reads_expect (t := sign .openCurly)).take fun _ _ => ?_
  have hparts : d.fields.flatMap (fun f => f.print ++ [sign .semicolon]) ++ d.methods.flatMap FnDecl.printMember =
      (partsOf d).flatMap StructPart.print := by
    simp [partsOf, List.flatMap_map, StructPart.print]
  rw [hparts]
  refine (reads_collect StructPart.bare StructPart.bare
    (fun part hpart => (heads_structPart (wellFormed_partsOf hwf part hpart)).ne_nil)
    (fun done part todo hsplit => ?_) ?_).seq fun parts hread => ?_
  · have hpart := wellFormed_partsOf hwf part (by simp [hsplit])
    refine reads_kind_of ((heads_structPart hpart).append _) fun kind hkind => ?_
    rw [if_neg hkind]
    exact (reads_structPart h hpart).map fun part' hpart' => ⟨part', rfl, hpart'⟩
  · refine reads_kind .closeCurly rfl ?_
    rw [if_pos rfl]
    exact reads_pure rfl
  · refine (reads_expect (t := sign .closeCurly)).last fun _ _ => reads_pure ?_
    simp only [StructDecl.bare, hname, StructDecl.mk.injEq, true_and]
    exact filterMap_parts hread

/-! ## Macros -/

theorem reads_macroParam (h : ReadsAll sub) {p : MacroParam} (hwf : p.type.WellFormed) :
    ReadsListed (macroParam sub) .closeParen p.print fun p' => p'.bare = p.bare := by
  obtain ⟨constant, type⟩ := p
  intro t more ht
  have heat : Reads (eat .hash) (signIf constant .hash) (type.print ++ t :: more) (· = constant) := by
    cases constant with
    | true => exact reads_eat (t := sign .hash)
    | false => exact reads_eat_other (((heads_type hwf).append _).ne id)
  refine heat.seq fun constant' hconstant => (h.type type hwf .lowest _ rfl ?_).last fun type' htype => reads_pure ?_
  · rcases ht with ht | ht <;> exact heads_cons (by rw [ht]; trivial) more
  · rw [MacroParam.bare, MacroParam.bare, htype, hconstant]

theorem heads_macroParam {p : MacroParam} (hwf : p.type.WellFormed) :
    Heads (fun kind => kind ≠ .closeParen ∧ kind ≠ .ellipsis) p.print := by
  obtain ⟨constant, type⟩ := p
  cases constant with
  | true => exact ⟨.hash, rfl, by decide, by decide⟩
  | false => exact (heads_type hwf).imp fun kind h => ⟨by rintro rfl; exact h, by rintro rfl; exact h⟩

theorem reads_macroDecl (h : ReadsAll sub) {d : MacroDecl} (hwf : d.WellFormed) :
    Reads ( macroDecl sub) d.print rest fun d' => d'.bare = d.bare := by
  obtain ⟨hparams, hreturns⟩ := hwf
  refine (reads_expect (t := sign .kwMacro)).take fun _ _ => (reads_ident d.name).take fun name hname => ?_
  refine (reads_expect (t := sign .openParen)).take fun _ _ => ?_
  refine (reads_parameters d.params MacroParam.print d.variadic MacroParam.bare MacroParam.bare
    (fun p hp => heads_macroParam (hparams p hp)) fun p hp => reads_macroParam h (hparams p hp)).seq fun params hread => ?_
  refine (reads_writtenType (fun t ht => h.type t (hreturns t ht)) ⟨.semicolon, rfl, trivial⟩).seq fun returns hreturns => ?_
  refine (reads_expect (t := sign .semicolon)).last fun _ _ => reads_pure ?_
  simp [MacroDecl.bare, hname, hread, hreturns]

/-! ## Declarations -/

theorem reads_templateParams {names : List Ident} (hrest : headKind rest ≠ some .kwTemplate) :
    Reads templateParams (printTemplate names) rest fun names' => names'.map Ident.bare = names.map Ident.bare := by
  cases names with
  | nil =>
    refine (reads_eat_other hrest).last fun eaten heaten => ?_
    subst heaten
    exact reads_pure rfl
  | cons name names =>
    refine (reads_eat (t := sign .kwTemplate)).take fun eaten heaten => ?_
    subst heaten
    refine (reads_expect (t := sign .less)).take fun _ _ => ?_
    refine (reads_commaSeparated .greater (by decide) rfl Ident.bare Ident.bare
      fun name _ t more _ => reads_ident name).seq fun names' hnames => ?_
    exact (reads_expect (t := sign .greater)).last fun _ _ => reads_pure hnames

theorem reads_globalDecl (h : ReadsAll sub) {d : VarDecl} (hwf : d.WellFormed) :
    Reads (varDecl sub) d.print (sign .semicolon :: rest) fun d' => d'.bare = d.bare :=
  reads_varDecl hwf (fun t ht => h.type t (hwf.1.1 t ht)) (fun v hv => h.expr v (hwf.1.2 v hv)) (heads_cons trivial _)

theorem reads_itemKind (h : ReadsAll sub) {kind : ItemKind} (hwf : kind.WellFormed) :
    Reads (itemKind sub) kind.print rest fun kind' => kind'.bare = kind.bare := by
  cases kind with
  | function d =>
    obtain ⟨hwf, hplain⟩ := hwf
    have hread : Reads (fnDecl sub d.kind) d.print rest _ := reads_fnDecl h hwf
    rw [hplain] at hread
    exact reads_kind .kwFn rfl (hread.map fun d' hd => congrArg ItemKind.function hd)
  | struct d => exact reads_kind .kwStruct rfl ((reads_structDecl h hwf).map fun d' hd => congrArg ItemKind.struct hd)
  | global d =>
    have hread : Reads (varDecl sub >>= fun d => expect .semicolon >>= fun _ => pure (ItemKind.global d))
        (d.print ++ [sign .semicolon]) rest fun kind' => kind'.bare = (ItemKind.global d).bare :=
      (reads_globalDecl h hwf).seq fun d' hd =>
        (reads_expect (t := sign .semicolon)).last fun _ _ => reads_pure (congrArg ItemKind.global hd)
    obtain ⟨name, constant, type, value⟩ := d
    cases constant with
    | true => exact reads_kind .kwConst rfl hread
    | false => exact reads_kind .kwVar rfl hread
  | typeAlias name target =>
    refine reads_kind .kwTypealias rfl (reads_advance.take fun _ _ => (reads_ident name).take fun name' hname => ?_)
    refine (reads_expect (t := sign .assignment)).take fun _ _ => ?_
    refine (h.type target hwf .lowest _ rfl (heads_cons trivial _)).seq fun target' htarget => ?_
    refine (reads_expect (t := sign .semicolon)).last fun _ _ => reads_pure ?_
    rw [ItemKind.bare, ItemKind.bare, hname, htarget]
  | macroDecl d =>
    exact reads_kind .kwMacro rfl ((reads_macroDecl h hwf).map fun d' hd => congrArg ItemKind.macroDecl hd)

/-- What a declaration starts with, its type parameters apart. -/
def startsItem (kind : TokenKind) : Prop := kind ≠ .eof ∧ kind ≠ .kwImport ∧ kind ≠ .kwTemplate

theorem heads_itemKind (kind : ItemKind) : Heads startsItem kind.print := by
  cases kind with
  | function d => exact ⟨.kwFn, rfl, by decide, by decide, by decide⟩
  | struct d => exact ⟨.kwStruct, rfl, by decide, by decide, by decide⟩
  | global d =>
    obtain ⟨name, constant, type, value⟩ := d
    cases constant with
    | true => exact ⟨.kwConst, rfl, by decide, by decide, by decide⟩
    | false => exact ⟨.kwVar, rfl, by decide, by decide, by decide⟩
  | typeAlias name target => exact ⟨.kwTypealias, rfl, by decide, by decide, by decide⟩
  | macroDecl d => exact ⟨.kwMacro, rfl, by decide, by decide, by decide⟩

theorem heads_item (item : Item) : Heads (fun kind => kind ≠ .eof ∧ kind ≠ .kwImport) item.print := by
  obtain ⟨kind, template, span⟩ := item
  cases template with
  | nil => exact (heads_itemKind kind).imp fun kind h => ⟨h.1, h.2.1⟩
  | cons name names => exact ⟨.kwTemplate, rfl, by decide, by decide⟩

theorem canBeTemplate_bare (kind : ItemKind) : canBeTemplate kind.bare = canBeTemplate kind := by
  cases kind <;> rfl

theorem canBeTemplate_of_templated {kind : ItemKind} (h : kind.Templated) : canBeTemplate kind = true := by
  cases kind <;> first | rfl | exact h.elim

theorem reads_item (h : ReadsAll sub) {it : Item} (hwf : it.WellFormed) :
    Reads (item sub) it.print rest fun it' => it'.bare = it.bare := by
  obtain ⟨hkind, htemplated⟩ := hwf
  refine reads_current.look fun start _ => ?_
  refine (reads_templateParams (((heads_itemKind it.kind).append rest).ne fun h => h.2.2 rfl)).seq fun names hnames => ?_
  refine (reads_itemKind h hkind).last fun kind hread => (reads_spanFrom start.span).last fun span _ => ?_
  have haccepted : ¬(!names.isEmpty && !canBeTemplate kind) = true := by
    rw [← canBeTemplate_bare, hread, canBeTemplate_bare]
    by_cases hempty : it.template = []
    · have hnone : names = [] := by simpa [hempty] using hnames
      simp [hnone]
    · simp [canBeTemplate_of_templated (htemplated hempty)]
  rw [if_neg haccepted]
  exact reads_pure (by simp [Item.bare, hread, hnames])

/-! ## Files -/

theorem reads_package (name : Ident) :
    Reads package [sign .kwPackage, name.print, sign .semicolon] rest fun name' => name'.bare = name.bare := by
  refine (reads_eat (t := sign .kwPackage)).take fun eaten heaten => ?_
  subst heaten
  refine (reads_ident name).take fun name' hname => ?_
  exact (reads_expect (t := sign .semicolon)).last fun _ _ => reads_pure hname

theorem reads_imports {names : List Ident} (hrest : headKind rest ≠ some .kwImport) :
    Reads imports (names.flatMap fun name => [sign .kwImport, name.print, sign .semicolon]) rest
      fun names' => names'.map Ident.bare = names.map Ident.bare := by
  refine reads_collect Ident.bare Ident.bare (by simp) (fun done name todo _ => ?_) ?_
  · refine (reads_eat (t := sign .kwImport)).take fun eaten heaten => ?_
    subst heaten
    refine (reads_ident name).take fun name' hname => ?_
    exact (reads_expect (t := sign .semicolon)).last fun _ _ => reads_pure ⟨name', rfl, hname⟩
  · refine (reads_eat_other hrest).last fun eaten heaten => ?_
    subst heaten
    exact reads_pure rfl

theorem reads_file (h : ReadsAll sub) {m : Surface.Module} (hwf : m.WellFormed) (text : String) :
    Reads (file sub m.file) m.print [(.eof, text)] fun m' => m'.bare = m.bare := by
  have hend : headKind (m.items.flatMap Item.print ++ [(.eof, text)]) ≠ some .kwImport := by
    cases m.items with
    | nil => simp
    | cons it items =>
      rw [List.flatMap_cons, List.append_assoc]
      exact ((heads_item it).append _).ne fun h => h.2 rfl
  refine (reads_package m.package).seq fun package hpackage => (reads_imports hend).seq fun imports himports => ?_
  refine (reads_collect Item.bare Item.bare (fun it _ => (heads_item it).ne_nil)
    (fun done it todo hsplit => ?_) ?_).last fun items hitems => reads_pure ?_
  · refine reads_get.look fun c hc => ?_
    have hmore : c.hasTokens = true := by
      obtain ⟨kind, hkind, hstarts⟩ := ((heads_item it).append (todo.flatMap Item.print ++ [(.eof, text)]))
      simpa [Cursor.hasTokens, Cursor.kind_of_ahead hc hkind] using hstarts.1
    rw [if_pos hmore]
    exact (reads_item h (hwf it (by simp [hsplit]))).map fun it' hit => ⟨it', rfl, hit⟩
  · refine reads_get.look fun c hc => ?_
    have hnone : ¬c.hasTokens = true := by simp [Cursor.hasTokens, Cursor.kind_of_ahead hc rfl]
    rw [if_neg hnone]
    exact reads_pure rfl
  · simp [Module.bare, hpackage, himports, hitems]

end OwnLang.Grammar

namespace OwnLang

open Surface

/-- What is printed is read back. Whatever the places of the tokens that a file is printed as, reading
them takes all of them up to the `eof` behind them and gives back the file, up to places. -/
theorem parseTokens_print (m : Surface.Module) (hwf : m.WellFormed) (tokens : List Token) (text : String)
    (htokens : tokens.map Token.bare = m.print ++ [(.eof, text)]) :
    ∃ first last m', Cursor.ofTokens? tokens = some first ∧
      Grammar.file Grammar.rule m.file first = .ok m' last ∧ last.kind = .eof ∧ last.after = [] ∧
      parseTokens m.file tokens = .ok m' ∧ m'.bare = m.bare := by
  cases tokens with
  | nil => simp at htokens
  | cons token tokens =>
    obtain ⟨m', last, hrun, hlast, hm⟩ := Grammar.reads_file Grammar.readsAll_rule hwf text
      (List.cons_ne_nil _ _) ⟨[], token, tokens⟩ htokens
    have hkind : last.kind = .eof := Cursor.kind_of_ahead hlast rfl
    have hafter : last.after = [] := by
      simp only [Cursor.ahead, List.map_cons, List.cons.injEq, List.map_eq_nil_iff] at hlast
      exact hlast.2
    refine ⟨⟨[], token, tokens⟩, last, m', rfl, hrun, hkind, hafter, ?_, hm⟩
    simp only [parseTokens, Cursor.ofTokens?, hrun]
    rfl

/-! A file with a template, a loop with a label, a branch and a value on the heap. -/

section Sample

private def called (name : String) : Ident := ⟨name, .null⟩

private def written (kind : ExprKind) : Expr := .mk kind .null

private def typed (kind : TypeKind) : TypeExpr := .mk kind .null

private def i32 : TypeExpr := typed (.named [called "i32"] [])

private def mention (name : String) : Expr := written (.path [called name] [])

private def counted : StmtKind :=
  .forLoop (some (called "outer"))
    (some (.mk (.decl ⟨called "i", false, some i32, some (written (.number 0))⟩) .null))
    (some (written (.binary .lt (mention "i") (mention "n"))))
    (some (.mk (.assign (mention "i") (some ⟨.add, @rfl Bool true⟩) (written (.number 1))) .null))
    (.mk [.mk (.cond [(mention "done", .mk [.mk (.brk (some (called "outer"))) .null] .null)]
      (some (.mk [.mk (.expr (written (.macroCall [called "print"] [mention "i"]))) .null] .null))) .null] .null)

/-- A box with one field, and a function that counts and returns a box on the heap. -/
def boxFile : Surface.Module where
  file := "box.own"
  package := called "main"
  imports := [called "io"]
  items := [
    ⟨.struct ⟨called "Box", [⟨called "value", true, some (typed (.named [called "T"] [])), none⟩], []⟩,
      [called "T"], .null⟩,
    ⟨.function {
      name := called "count"
      kind := .plain
      params := [⟨called "n", i32⟩]
      variadic := false
      returns := some (typed (.owner (typed (.named [called "Box"] [i32])) true))
      body := some (.mk [.mk counted .null, .mk (.ret (some (written (.structInit
        (typed (.named [called "Box"] [i32])) [(called "value", mention "n")] true)))) .null] .null)
      span := .null }, [], .null⟩]

/-- The tokens of the file, all at one place. -/
def boxTokens : List Token := (boxFile.print ++ [(TokenKind.eof, "")]).map fun t => ⟨t.1, t.2, .null⟩

theorem wellFormed_boxFile : boxFile.WellFormed := by
  simp [boxFile, counted, mention, i32, typed, written, called, Module.WellFormed, Item.WellFormed,
    ItemKind.WellFormed, ItemKind.Templated, StructDecl.WellFormed, FnDecl.WellFormed, VarDecl.WellFormed,
    VarDecl.WellFormedField, VarDecl.PartsWellFormed, Block.WellFormed, WellFormedStmts, Stmt.WellFormed,
    StmtKind.WellFormed, WellFormedHeader, WellFormedBranches, WellFormedOtherwise, Stmt.IsSimple, Stmt.kind,
    Expr.WellFormed, ExprKind.WellFormed, WellFormedExprs, WellFormedFields, TypeExpr.WellFormed,
    TypeKind.WellFormed, WellFormedTypes, wordBound]

theorem parseTokens_print_boxFile :
    boxFile.WellFormed ∧ boxTokens.map Token.bare = boxFile.print ++ [(.eof, "")] ∧
      ∃ first last m', Cursor.ofTokens? boxTokens = some first ∧
        Grammar.file Grammar.rule "box.own" first = .ok m' last ∧ last.kind = .eof ∧ last.after = [] ∧
        parseTokens "box.own" boxTokens = .ok m' ∧ m'.bare = boxFile.bare := by
  have htokens : boxTokens.map Token.bare = boxFile.print ++ [(.eof, "")] := by
    simp [boxTokens, Token.bare, Function.comp_def]
  exact ⟨wellFormed_boxFile, htokens, parseTokens_print boxFile wellFormed_boxFile boxTokens "" htokens⟩

end Sample

end OwnLang
