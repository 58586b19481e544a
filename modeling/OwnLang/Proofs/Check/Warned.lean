import OwnLang.Proofs.Check.Reach
import OwnLang.Proofs.Check.Body
import OwnLang.Proofs.Grammar.Arranged

/-!
# Warnings mark what is not reached

Where a statement ends its block, or the condition of an arm is known, the statements that are not
reached get one warning together, unless a region around them has one. A run of checking accounts for
the statements that it makes if its warnings mark just the flagged ones among them (`Accounts`). Runs
that are made one after the other, for parts of a text that stand apart, account for what they make
together, so every accepted body has exact warnings (`marks_checkBody`).
-/

/-!
## Warnings that mark statements

The statements of a body are those of its blocks, at any depth (`Core.Block.inside`). Warnings mark them
if they are exact for those that no execution reaches (`Marks`), and what is marked in different parts of
a text is marked together (`Marks.append`).
-/

namespace OwnLang

namespace Core

mutual

/-- The statements of the blocks inside a statement. -/
def Stmt.inside : Stmt → List Stmt
  | .mk kind _ _ => kind.inside

/-- The statements of the blocks inside a form of a statement. Those in the header of a loop are in
none. -/
def StmtKind.inside : StmtKind → List Stmt
  | .declare _ _ | .assign _ _ _ | .expr _ _ | .ret _ _ | .brk _ _ | .cont _ _ => []
  | .cond branches otherwise => branchesInside branches ++ otherwiseInside otherwise
  | .loop _ init _ step body _ => optionalInside init ++ (body.inside ++ optionalInside step)
  | .scope block => block.inside

/-- The statements of a block and of the blocks inside it. -/
def Block.inside : Block → List Stmt
  | .mk stmts _ => stmtsInside stmts

/-- Statements with those inside them. -/
def stmtsInside : List Stmt → List Stmt
  | [] => []
  | s :: rest => s :: (s.inside ++ stmtsInside rest)

/-- The statements of branches with conditions. -/
def branchesInside : List (Expr × Block) → List Stmt
  | [] => []
  | (_, body) :: rest => body.inside ++ branchesInside rest

/-- The statements of a branch without a condition. -/
def otherwiseInside : Option Block → List Stmt
  | none => []
  | some body => body.inside

/-- The statements inside one that may be missing. -/
def optionalInside : Option Stmt → List Stmt
  | none => []
  | some s => s.inside

end

@[simp] theorem Stmt.inside_flagged (s : Stmt) (dead : Bool) : (s.flagged dead).inside = s.inside := by
  cases s
  rfl

theorem stmtsInside_append (stmts tail : List Stmt) :
    stmtsInside (stmts ++ tail) = stmtsInside stmts ++ stmtsInside tail := by
  induction stmts with
  | nil => rfl
  | cons s rest ih => simp [stmtsInside, ih]

end Core

/-- One of two spans is behind the other. -/
def Span.Apart (s t : Span) : Prop := s.stop ≤ t.start ∨ t.stop ≤ s.start

theorem Span.Apart.symm {s t : Span} (h : s.Apart t) : t.Apart s := Or.symm h

theorem Span.Apart.within {s s' t t' : Span} (h : s.Apart t) (hs : s'.Within s) (ht : t'.Within t) :
    s'.Apart t' :=
  h.imp (fun h => hs.2.2.trans (h.trans ht.2.1)) fun h => ht.2.2.trans (h.trans hs.2.1)

theorem Span.Apart.not_within {s t : Span} (h : s.Apart t) (hs : s.start < s.stop) : ¬s.Within t := by
  intro hst
  obtain ⟨-, hstart, hstop⟩ := hst
  rcases h with h | h <;> omega

/-- Warnings are exact for statements: a flagged statement lies inside exactly one of the warned
regions, which stand apart, and each of them holds a flagged statement and no other one. -/
structure Marks (stmts : List Core.Stmt) (raised : List Warning) : Prop where
  once : ∀ s ∈ stmts, s.unreachable = true → raised.countP (fun w => s.span.Within w.span) = 1
  needed : ∀ w ∈ raised, ∃ s ∈ stmts, s.unreachable = true ∧ s.span.Within w.span
  only : ∀ s ∈ stmts, s.unreachable = false → ∀ w ∈ raised, ¬s.span.Within w.span
  disjoint : raised.Pairwise fun v w => v.span.Apart w.span

section

variable {stmts stmts' : List Core.Stmt} {raised raised' : List Warning} {region : Span}

theorem marks_nil (h : ∀ s ∈ stmts, s.unreachable = false) : Marks stmts [] :=
  ⟨fun s hs hdead => absurd (hdead.symm.trans (h s hs)) (by decide), nofun, fun _ _ _ => nofun, .nil⟩

/-- One region for statements that are all flagged. -/
theorem marks_region (hdead : ∀ s ∈ stmts, s.unreachable = true) (hstmts : stmts ≠ [])
    (hin : ∀ s ∈ stmts, s.span.Within region) : Marks stmts [⟨.unreachableCode, region⟩] where
  once s hs _ := by simp [hin s hs]
  needed w hw := by
    obtain ⟨s, hs⟩ := List.exists_mem_of_ne_nil _ hstmts
    rw [List.mem_singleton.mp hw]
    exact ⟨s, hs, hdead s hs, hin s hs⟩
  only s hs hlive := absurd ((hdead s hs).symm.trans hlive) (by decide)
  disjoint := List.pairwise_singleton _ _

/-- Warnings for different parts are exact together. -/
theorem Marks.append (h : Marks stmts raised) (h' : Marks stmts' raised')
    (hout : ∀ s ∈ stmts, ∀ w ∈ raised', ¬s.span.Within w.span)
    (hout' : ∀ s ∈ stmts', ∀ w ∈ raised, ¬s.span.Within w.span)
    (happart : ∀ v ∈ raised, ∀ w ∈ raised', v.span.Apart w.span) :
    Marks (stmts ++ stmts') (raised ++ raised') where
  once s hs hdead := by
    rw [List.countP_append]
    rcases List.mem_append.mp hs with hs | hs
    · have hnone : raised'.countP (fun w => s.span.Within w.span) = 0 :=
        List.countP_eq_zero.mpr fun w hw => by simpa using hout s hs w hw
      rw [h.once s hs hdead, hnone]
    · have hnone : raised.countP (fun w => s.span.Within w.span) = 0 :=
        List.countP_eq_zero.mpr fun w hw => by simpa using hout' s hs w hw
      rw [h'.once s hs hdead, hnone]
  needed w hw := by
    rcases List.mem_append.mp hw with hw | hw
    · obtain ⟨s, hs, hmark⟩ := h.needed w hw
      exact ⟨s, List.mem_append_left _ hs, hmark⟩
    · obtain ⟨s, hs, hmark⟩ := h'.needed w hw
      exact ⟨s, List.mem_append_right _ hs, hmark⟩
  only s hs hlive w hw := by
    rcases List.mem_append.mp hs with hs | hs <;> rcases List.mem_append.mp hw with hw | hw
    · exact h.only s hs hlive w hw
    · exact hout s hs w hw
    · exact hout' s hs w hw
    · exact h'.only s hs hlive w hw
  disjoint := List.pairwise_append.mpr ⟨h.disjoint, h'.disjoint, happart⟩

end

end OwnLang

namespace OwnLang

theorem Span.apart_tails {ps qs : List Span} (h : ∀ p ∈ ps, ∀ q ∈ qs, p.stop ≤ q.start) :
    ∀ p ∈ ps.map Span.tail, ∀ q ∈ qs.map Span.tail, p.Apart q := by
  intro p hp q hq
  obtain ⟨s, hs, rfl⟩ := List.mem_map.mp hp
  obtain ⟨t, ht, rfl⟩ := List.mem_map.mp hq
  exact Apart.within (.inl (h s hs t ht)) s.tail_within t.tail_within

/-! ## Runs that account for what they make -/

/-- How many regions are open that no execution reaches. -/
def Context.regions (c : Context) : Option Nat := c.frame.map (·.unreachable)

namespace Context

variable {c d : Context}

theorem here_unreachable {n : Nat} (h : c.regions = some n) : c.here.unreachable = n := by
  obtain ⟨f, hf, rfl⟩ := Option.map_eq_some_iff.mp h
  rw [here, hf]
  rfl

theorem regions_reframe (c : Context) (change : Frame → Frame) :
    (c.reframe change).regions = c.frame.map fun f => (change f).unreachable :=
  Option.map_map ..

theorem Steps.regions (h : c.Steps Frame.Advances d) : d.regions = c.regions := by
  obtain ⟨hframe, -⟩ := h
  unfold Context.regions
  revert hframe
  generalize c.frame = o
  generalize d.frame = o'
  rintro (hfg | _)
  · exact congrArg some hfg.unreachable
  · rfl

end Context

/-- From `c` to `d` the statements `made` were made out of what stands in the places. In a region that no
execution reaches they are flagged and there are no more warnings; outside, the warnings that were
raised are exact for them. -/
structure Accounts (places : List Span) (c d : Context) (made : List Core.Stmt) : Prop where
  placed : ∀ s ∈ made, s.span.start < s.span.stop ∧ ∃ p ∈ places, s.span.Within p
  dead : ∀ n, c.regions = some (n + 1) →
    d.warnings = c.warnings ∧ ∀ s ∈ made, s.unreachable = true
  live : c.regions = some 0 → ∃ raised, d.warnings.toList = c.warnings.toList ++ raised ∧
    Marks made raised ∧ ∀ w ∈ raised, ∃ p ∈ places, w.span.Within p

namespace Accounts

variable {places places' : List Span} {c c₁ d e : Context} {made made' : List Core.Stmt}

theorem nil (places : List Span) (h : d.warnings = c.warnings) : Accounts places c d [] where
  placed := List.forall_mem_nil _
  dead _ _ := ⟨h, List.forall_mem_nil _⟩
  live _ := ⟨[], by rw [h, List.append_nil], marks_nil (List.forall_mem_nil _), List.forall_mem_nil _⟩

/-- Only the warnings matter, and whether a region is open. -/
theorem congr (h : Accounts places c d made) (hregions : c.regions = c₁.regions)
    (hc : c.warnings = c₁.warnings) (hd : e.warnings = d.warnings) : Accounts places c₁ e made where
  placed := h.placed
  dead n hn := by
    obtain ⟨hsame, hflagged⟩ := h.dead n (hregions.trans hn)
    exact ⟨hd.trans (hsame.trans hc), hflagged⟩
  live hn := by
    obtain ⟨raised, hraised, hmarks⟩ := h.live (hregions.trans hn)
    exact ⟨raised, by rw [hd, hraised, hc], hmarks⟩

theorem behind (h : Accounts places c d made) (hd : e.warnings = d.warnings) :
    Accounts places c e made := h.congr rfl rfl hd

theorem mono (h : Accounts places c d made) (hplaces : ∀ p ∈ places, ∃ q ∈ places', p.Within q) :
    Accounts places' c d made := by
  have hmono {s : Span} : (∃ p ∈ places, s.Within p) → ∃ q ∈ places', s.Within q := by
    rintro ⟨p, hp, hs⟩
    obtain ⟨q, hq, hpq⟩ := hplaces p hp
    exact ⟨q, hq, hs.trans hpq⟩
  refine ⟨fun s hs => (h.placed s hs).imp_right hmono, h.dead, fun hn => ?_⟩
  obtain ⟨raised, hraised, hmarks, hin⟩ := h.live hn
  exact ⟨raised, hraised, hmarks, fun w hw => hmono (hin w hw)⟩

theorem widen {p q : Span} (h : Accounts [p] c d made) (hpq : p.Within q) : Accounts [q] c d made :=
  h.mono (List.forall_mem_singleton.mpr ⟨q, List.mem_singleton_self _, hpq⟩)

theorem within {p : Span} (h : Accounts [p] c d made) :
    ∀ s ∈ made, s.span.start < s.span.stop ∧ s.span.Within p := by
  intro s hs
  obtain ⟨hlt, q, hq, hin⟩ := h.placed s hs
  exact ⟨hlt, List.mem_singleton.mp hq ▸ hin⟩

/-- Two runs, one after the other, for what stands apart. -/
theorem append (h : Accounts places c c₁ made) (h' : Accounts places' c₁ d made')
    (hregions : c₁.regions = c.regions) (hplaces : ∀ p ∈ places, ∀ q ∈ places', p.Apart q) :
    Accounts (places ++ places') c d (made ++ made') where
  placed := List.forall_mem_append.mpr
    ⟨(h.mono fun p hp => ⟨p, List.mem_append_left _ hp, .refl p⟩).placed,
      (h'.mono fun p hp => ⟨p, List.mem_append_right _ hp, .refl p⟩).placed⟩
  dead n hn := by
    obtain ⟨hsame, hdead⟩ := h.dead n hn
    obtain ⟨hsame', hdead'⟩ := h'.dead n (hregions.trans hn)
    exact ⟨hsame'.trans hsame, List.forall_mem_append.mpr ⟨hdead, hdead'⟩⟩
  live hn := by
    obtain ⟨raised, hraised, hmarks, hin⟩ := h.live hn
    obtain ⟨raised', hraised', hmarks', hin'⟩ := h'.live (hregions.trans hn)
    have happart {s t : Span} (hs : ∃ p ∈ places, s.Within p) (ht : ∃ q ∈ places', t.Within q) :
        s.Apart t := by
      obtain ⟨p, hp, hs⟩ := hs
      obtain ⟨q, hq, ht⟩ := ht
      exact (hplaces p hp q hq).within hs ht
    refine ⟨raised ++ raised', by rw [hraised', hraised, List.append_assoc], ?_, ?_⟩
    · refine hmarks.append hmarks' (fun s hs w hw => ?_) (fun s hs w hw => ?_) fun v hv w hw =>
        happart (hin v hv) (hin' w hw)
      · obtain ⟨hs, hplace⟩ := h.placed s hs
        exact (happart hplace (hin' w hw)).not_within hs
      · obtain ⟨hs, hplace⟩ := h'.placed s hs
        exact (happart (hin w hw) hplace).symm.not_within hs
    · intro w hw
      rcases List.mem_append.mp hw with hw | hw
      · obtain ⟨p, hp, hw⟩ := hin w hw
        exact ⟨p, List.mem_append_left _ hp, hw⟩
      · obtain ⟨p, hp, hw⟩ := hin' w hw
        exact ⟨p, List.mem_append_right _ hp, hw⟩

/-- A statement is in no region that was warned of inside it, since it starts in front of that. -/
theorem stmt {s : Core.Stmt} {dead : Bool} (h : Accounts [s.span.tail] c d s.inside)
    (hs : s.span.start < s.span.stop) (hdead : ∀ n, c.regions = some n → dead = decide (0 < n)) :
    Accounts [s.span] c d (s.flagged dead :: s.inside) where
  placed := List.forall_mem_cons.mpr
    ⟨⟨hs, s.span, List.mem_singleton_self _, .refl _⟩, (h.widen s.span.tail_within).placed⟩
  dead n hn := by
    obtain ⟨hsame, hflagged⟩ := h.dead n hn
    exact ⟨hsame, List.forall_mem_cons.mpr ⟨(hdead _ hn).trans (by simp), hflagged⟩⟩
  live hn := by
    obtain ⟨raised, hraised, hmarks, hin⟩ := h.live hn
    have hbehind (w) (hw : w ∈ raised) : w.span.Within s.span.tail := by
      obtain ⟨p, hp, hin⟩ := hin w hw
      rwa [List.mem_singleton.mp hp] at hin
    have hreached : (s.flagged dead).unreachable = false := (hdead 0 hn).trans (by simp)
    have hself : Marks [s.flagged dead] [] := marks_nil (List.forall_mem_singleton.mpr hreached)
    refine ⟨raised, hraised, hself.append hmarks ?_ (fun _ _ _ => nofun) nofun, fun w hw =>
      ⟨s.span, List.mem_singleton_self _, (hbehind w hw).trans s.span.tail_within⟩⟩
    intro t ht w hw hwithin
    rw [List.mem_singleton.mp ht] at hwithin
    exact absurd ((hbehind w hw).2.1.trans hwithin.2.1) (Nat.not_succ_le_self _)

/-- A statement, and those behind it. -/
theorem cons {around : Span} {stmt : Surface.Stmt} {rest : List Surface.Stmt} {s : Core.Stmt}
    {dead : Bool} (hparts : around.Ordered ((stmt :: rest).map (·.span))) (hstmt : stmt.Arranged)
    (hs : s.span = stmt.span) (hinside : Accounts [stmt.span.tail] c c₁ s.inside)
    (hregions : c₁.regions = c.regions) (hdead : ∀ n, c.regions = some n → dead = decide (0 < n))
    (h : Accounts [{ around with start := stmt.span.stop }] c₁ d made) :
    Accounts [around] c d ((s.flagged dead :: s.inside) ++ made) := by
  have hin := hparts.inside stmt.span (by simp)
  cases hstmt with
  | intro nonempty =>
    rw [← hs] at nonempty hinside h hin
    refine ((hinside.stmt nonempty hdead).append h hregions ?_).mono ?_
    · exact List.forall_mem_singleton.mpr (List.forall_mem_singleton.mpr (.inl le_rfl))
    · exact List.forall_mem_cons.mpr ⟨⟨around, List.mem_singleton_self _, hin⟩,
        List.forall_mem_singleton.mpr
          ⟨around, List.mem_singleton_self _, rfl, hin.2.1.trans nonempty.le, le_rfl⟩⟩

end Accounts

namespace Check

/-! ## Regions -/

/-- The frame inside one more region that no execution reaches. -/
def deeper (f : Frame) : Frame := { f with unreachable := f.unreachable + 1 }

/-- Statements that stand one behind the other do so in the region that they make. -/
theorem ordered_region {around region : Span} {stmts : List Surface.Stmt}
    (h : around.Ordered (stmts.map (·.span))) (hstmts : ∀ s ∈ stmts, s.Arranged)
    (hregion : regionOf stmts = some region) :
    region.Ordered (stmts.map (·.span)) ∧ region.Within around := by
  obtain ⟨first, hfirst, hends⟩ := Option.bind_eq_some_iff.mp hregion
  obtain ⟨last, hlast, rfl⟩ := Option.map_eq_some_iff.mp hends
  obtain ⟨rest, rfl⟩ := List.head?_eq_some_iff.mp hfirst
  obtain ⟨front, hfront⟩ := List.getLast?_eq_some_iff.mp hlast
  have hforward {s : Surface.Stmt} (hs : s ∈ first :: rest) : s.span.start < s.span.stop := by
    cases hstmts s hs with
    | intro nonempty => exact nonempty
  have hin {s : Surface.Stmt} (hs : s ∈ first :: rest) : s.span.Within around :=
    h.inside _ (List.mem_map_of_mem hs)
  have hmem : last ∈ first :: rest := hfront ▸ by simp
  have hbegin {s : Surface.Stmt} (hs : s ∈ first :: rest) : first.span.start ≤ s.span.start := by
    rcases List.mem_cons.mp hs with rfl | hs
    · exact le_rfl
    · have happart := (List.pairwise_cons.mp h.apart).1 _ (List.mem_map_of_mem hs)
      exact (hforward List.mem_cons_self).le.trans happart
  have hend {s : Surface.Stmt} (hs : s ∈ first :: rest) : s.span.stop ≤ last.span.stop := by
    have happart := h.apart
    rw [hfront, List.map_append] at happart
    rw [hfront] at hs
    rcases List.mem_append.mp hs with hs | hs
    · have hle := (List.pairwise_append.mp happart).2.2 _ (List.mem_map_of_mem hs) last.span (by simp)
      exact hle.trans (hforward hmem).le
    · rw [List.mem_singleton.mp hs]
  refine ⟨⟨fun p hp => ?_, h.apart⟩, (hin List.mem_cons_self).1, (hin List.mem_cons_self).2.1,
    (hin hmem).2.2⟩
  obtain ⟨s, hs, rfl⟩ := List.mem_map.mp hp
  exact ⟨(hin hs).1.trans (hin List.mem_cons_self).1.symm, hbegin hs, hend hs⟩

variable {ask : Asker} {scope : Scope} {c d : Context}

theorem regionOf_eq_none {stmts : List Surface.Stmt} (h : regionOf stmts = none) : stmts = [] := by
  cases stmts with
  | nil => rfl
  | cons first rest => simp [regionOf] at h

theorem regions_deeper {n : Nat} (hn : c.regions = some n) (warnings : Array Warning) :
    ({ c with warnings }.reframe deeper).regions = some (n + 1) := by
  obtain ⟨f, hf, rfl⟩ := Option.map_eq_some_iff.mp hn
  rw [Context.regions_reframe]
  exact congrArg (Option.map fun f => f.unreachable + 1) hf

/-- Nothing is made out of what stands nowhere. -/
theorem accounts_nowhere {places : List Span} {made : List Core.Stmt}
    (h : Accounts [.null] (c.reframe deeper) d made) :
    Accounts places c (d.reframe leaveUnreachable) made := by
  obtain rfl : made = [] := List.eq_nil_iff_forall_not_mem.mpr fun s hs => by
    obtain ⟨hlt, hin⟩ := h.within s hs
    exact absurd (hlt.trans_le hin.2.2) (Nat.not_lt_zero _)
  refine ⟨List.forall_mem_nil _, fun n hn => h.dead _ (regions_deeper hn c.warnings), fun hn => ?_⟩
  refine ⟨[], ?_, marks_nil (List.forall_mem_nil _), List.forall_mem_nil _⟩
  rw [List.append_nil]
  exact congrArg Array.toList (h.dead _ (regions_deeper hn c.warnings)).1

/-- A region is warned of when it is opened, unless there is one around it. -/
theorem accounts_warned {stmts : List Surface.Stmt} {region : Span} {made : List Core.Stmt}
    (hregion : regionOf stmts = some region) (hmade : made ≠ [])
    (h : Accounts [region] ({ c with warnings := warned c stmts }.reframe deeper) d made) :
    Accounts [region] c (d.reframe leaveUnreachable) made := by
  have hwarned : warned c stmts = if c.here.unreachable = 0 then
      c.warnings.push ⟨.unreachableCode, region⟩ else c.warnings := by
    unfold warned
    rw [hregion]
  refine ⟨h.placed, fun n hn => ?_, fun hn => ?_⟩
  · rw [Context.here_unreachable hn, if_neg (Nat.succ_ne_zero n)] at hwarned
    obtain ⟨hsame, hdead⟩ := h.dead _ (regions_deeper hn _)
    exact ⟨hsame.trans hwarned, hdead⟩
  · rw [Context.here_unreachable hn, if_pos rfl] at hwarned
    obtain ⟨hsame, hdead⟩ := h.dead _ (regions_deeper hn _)
    refine ⟨[⟨.unreachableCode, region⟩], ?_, marks_region hdead hmade fun s hs => (h.within s hs).2,
      List.forall_mem_singleton.mpr ⟨region, List.mem_singleton_self _, .refl _⟩⟩
    exact (congrArg Array.toList (hsame.trans hwarned)).trans (by simp)

/-- A region of statements that stand one behind the other. One without statements is never warned
of. -/
theorem accounts_region {around : Span} {stmts : List Surface.Stmt} {made : List Core.Stmt}
    (hparts : around.Ordered (stmts.map (·.span))) (hstmts : ∀ s ∈ stmts, s.Arranged)
    (hmade : stmts ≠ [] → made ≠ []) (h : ∀ region : Span, region.Ordered (stmts.map (·.span)) →
      Accounts [region] ({ c with warnings := warned c stmts }.reframe deeper) d made) :
    Accounts [around] c (d.reframe leaveUnreachable) made := by
  cases hregion : regionOf stmts with
  | none =>
    obtain rfl := regionOf_eq_none hregion
    exact accounts_nowhere (h .null (Span.ordered_nil _))
  | some region =>
    obtain ⟨hordered, hin⟩ := ordered_region hparts hstmts hregion
    have hfilled : made ≠ [] := hmade fun hnil => by
      rw [hnil] at hregion
      cases hregion
    exact (accounts_warned hregion hfilled (h region hordered)).widen hin

/-- What the answers to queries do to the warnings. -/
structure Warns (ask : Asker) : Prop where
  quiet : ∀ q : Query, q.isExpr → ∀ w, (ask q).Preserves fun c => c.warnings = w
  stmt : ∀ {s scope c d out}, ask (.stmt s scope) c = .ok out d → s.Arranged →
    out.span = s.span ∧ Accounts [s.span.tail] c d out.inside
  block : ∀ {b scope c d out}, ask (.block b scope) c = .ok out d → (∀ s ∈ b.stmts, s.Arranged) →
    ∀ around : Span, around.Ordered (b.stmts.map (·.span)) → Accounts [around] c d out.1.inside
  filled : ∀ {b scope c d out}, ask (.block b scope) c = .ok out d → b.stmts ≠ [] →
    out.1.inside ≠ []

theorem warnings_detached {α : Type} {work : Check α} {w : Array Warning}
    (h : work.Preserves fun c => c.warnings = w) :
    (detached work).Preserves fun c => c.warnings = w := by
  intro c d hd hc
  unfold detached at hd
  obtain ⟨e, hwork, rfl⟩ := Run.ends_andFinally hd
  have he : e.warnings = w := h hwork hc
  exact he

/-- Declaring an entity warns of nothing. -/
theorem warnings_additive (w : Array Warning) : Additive fun c => c.warnings = w where
  global _ _ _ _ _ hc := hc
  struct _ _ _ _ hc := hc
  member _ _ _ hc := hc
  typeAlias _ _ _ hc := hc
  macroDef _ _ _ _ hc := hc

/-- Checking an expression warns of nothing. -/
theorem warnings_stable (w : Array Warning)
    (ha : ∀ q : Query, q.isExpr → (ask q).Preserves fun c => c.warnings = w) :
    Stable ask fun c => c.warnings = w where
  answers := ha
  detached := warnings_detached
  consume := preserves_consume fun _ => Run.preserves_modify fun _ hc => hc
  aliasStarted _ _ hc := hc
  aliasDone _ _ _ hc := hc
  structResolved := preserves_resolveStruct ha warnings_detached (fun _ _ hc => hc) fun _ _ _ hc => hc
  macroDone _ _ _ _ hc := hc
  instantiate := preserves_instantiate (warnings_additive w) ha warnings_detached
    (fun _ _ _ hc => hc) fun _ _ _ hc => hc

theorem Warns.stable (hw : Warns ask) (w : Array Warning) : Stable ask fun c => c.warnings = w :=
  warnings_stable w fun q hq => hw.quiet q hq w

theorem warnings_settleMoves {block : BlockFrame} (h : settleMoves block c = .ok ⟨⟩ d) :
    d.warnings = c.warnings := by
  rcases settleMoves_eq_ok h with ⟨-, rfl⟩ | ⟨-, ⟨-, -, rfl⟩ | ⟨-, rfl⟩⟩ <;> rfl

theorem warnings_takeOwnership {place : Core.Place} {span : Span} {owned : Bool}
    (h : takeOwnership place span c = .ok owned d) : d.warnings = c.warnings := by
  rcases takeOwnership_eq_ok h with ⟨-, -, rfl⟩ | ⟨-, id, -, -, rfl⟩ <;> rfl

theorem warnings_jumpStmt {jump : Jump} {label : Option Surface.Ident} {span : Span}
    {kind : Core.StmtKind} (h : jumpStmt jump label span c = .ok kind d) :
    d.warnings = c.warnings := by
  obtain ⟨i, loop, c₁, -, ⟨-, carried, -, rfl⟩ | ⟨-, rfl⟩, -, rfl⟩ := jumpStmt_eq_ok h <;> rfl

section

variable (hw : Warns ask)

include hw

theorem Warns.evaluated {α : Type} {work : Check α} {a : α} (h : work c = .ok a d)
    (hwork : ∀ P, Stable ask P → work.Preserves P) : d.warnings = c.warnings :=
  hwork _ (hw.stable c.warnings) (Run.ends_of_ok h) rfl

theorem Warns.expr {q : Query} (hq : q.isExpr) {a : q.Answer} (h : ask q c = .ok a d) :
    d.warnings = c.warnings := hw.evaluated h fun _ hP => hP.answers q hq

theorem warnings_loopCondition {condition : Option Surface.Expr}
    {out : Option Core.Expr × Option Bool}
    (h : loopCondition ask scope condition c = .ok out d) : d.warnings = c.warnings := by
  cases condition with
  | none =>
    cases h
    rfl
  | some e =>
    obtain ⟨test, htest, -⟩ := loopCondition_some_eq_ok h
    exact hw.expr rfl htest

theorem warnings_declStmt {decl : Surface.VarDecl} {kind : Core.StmtKind}
    (h : declStmt ask decl scope c = .ok kind d) : d.warnings = c.warnings :=
  preserves_declStmt (fun _ => Run.preserves_modify fun _ hc => hc)
    (warnings_stable c.warnings fun q hq => hw.quiet q hq _) decl scope (Run.ends_of_ok h) rfl

theorem warnings_assignStmt {target value : Surface.Expr} {op : Option Surface.ArithmeticOp}
    {kind : Core.StmtKind} (h : assignStmt ask target op value scope c = .ok kind d) :
    d.warnings = c.warnings := by
  obtain ⟨steps, -⟩ := assignStmt_eq_ok h
  have hvalued : steps.valued.warnings = steps.placed.warnings := by
    rcases steps.hsource with ⟨-, hv⟩ | ⟨o, right, -, hv, -⟩ <;> exact hw.expr rfl hv
  calc d.warnings = steps.taken.warnings := warnings_takeOwnership steps.hstored
    _ = steps.valued.warnings := hw.evaluated steps.htaken fun _ hP => hP.consume _
    _ = steps.placed.warnings := hvalued
    _ = c.warnings := hw.expr rfl steps.hplace

theorem warnings_exprStmt {e : Surface.Expr} {kind : Core.StmtKind}
    (h : exprStmt ask e scope c = .ok kind d) : d.warnings = c.warnings := by
  obtain ⟨value, hvalue, -⟩ := exprStmt_eq_ok h
  exact hw.evaluated hvalue fun _ hP => preserves_rawValue hP _ _ _

theorem warnings_returnStmt {value : Option Surface.Expr} {span : Span} {kind : Core.StmtKind}
    (h : returnStmt ask value span scope c = .ok kind d) : d.warnings = c.warnings := by
  obtain ⟨out, c₁, hout, -, rfl⟩ := returnStmt_eq_ok h
  show c₁.warnings = c.warnings
  rcases returnedValue_eq_ok hout with ⟨-, -, -, rfl⟩ | ⟨e, v, -, hv, -⟩ | ⟨e, v, c₂, -, hv, htaken, -⟩
  · rfl
  · exact hw.evaluated hv fun _ hP => preserves_rawValue hP _ _ _
  · exact (hw.evaluated htaken fun _ hP => hP.consume _).trans (hw.expr rfl hv)

end

/-! ## Statements and blocks -/

section

variable (hs : Steady ask) (hw : Warns ask)

include hs hw

theorem accounts_unreachableStmts {stmts : List Surface.Stmt} {out : List Core.Stmt} {around : Span}
    (h : unreachableStmts ask scope stmts c = .ok out d) (hstmts : ∀ s ∈ stmts, s.Arranged)
    (hparts : around.Ordered (stmts.map (·.span))) (hc : c.regions ≠ some 0) :
    Accounts [around] c d (Core.stmtsInside out) := by
  induction stmts generalizing c out around with
  | nil =>
    cases h
    exact .nil _ rfl
  | cons stmt rest ih =>
    obtain ⟨s, c₁, after, hstmt, hafter, rfl⟩ := unreachableStmts_cons_eq_ok h
    obtain ⟨harranged, hrest⟩ := List.forall_mem_cons.mp hstmts
    obtain ⟨hspan, hinside⟩ := hw.stmt hstmt harranged
    have hregions := (hs.stmt hstmt).regions
    have hbehind := ih hafter hrest hparts.behind (by rwa [hregions])
    rw [Core.stmtsInside, Core.Stmt.inside_flagged]
    refine Accounts.cons hparts harranged hspan hinside hregions (fun n hn => ?_) hbehind
    have hpos : 0 < n := Nat.pos_of_ne_zero fun hzero => hc (hzero ▸ hn)
    exact (decide_eq_true hpos).symm

omit hs hw in
theorem filled_checkStmts {stmts : List Surface.Stmt} {out : List Core.Stmt}
    (h : checkStmts ask scope stmts c = .ok out d) (hstmts : stmts ≠ []) :
    Core.stmtsInside out ≠ [] := by
  obtain ⟨stmt, rest, rfl⟩ := List.exists_cons_of_ne_nil hstmts
  rcases checkStmts_cons_eq_ok h with ⟨-, _, c₁, hdead, -⟩ | ⟨-, s, c₁, after, -, -, rfl⟩
  · obtain ⟨s, _, after, -, -, rfl⟩ := unreachableStmts_cons_eq_ok hdead
    exact List.cons_ne_nil _ _
  · exact List.cons_ne_nil _ _

theorem accounts_checkStmts {stmts : List Surface.Stmt} {out : List Core.Stmt} {around : Span}
    (h : checkStmts ask scope stmts c = .ok out d) (hstmts : ∀ s ∈ stmts, s.Arranged)
    (hparts : around.Ordered (stmts.map (·.span))) :
    Accounts [around] c d (Core.stmtsInside out) := by
  induction stmts generalizing c out around with
  | nil =>
    cases h
    exact .nil _ rfl
  | cons stmt rest ih =>
    rcases checkStmts_cons_eq_ok h with
      ⟨-, _, c₁, hdead, rfl, rfl⟩ | ⟨-, s, c₁, after, hstmt, hafter, rfl⟩
    · refine accounts_region hparts hstmts (filled_checkStmts h) fun region hordered => ?_
      refine accounts_unreachableStmts hs hw hdead hstmts hordered ?_
      rw [Context.regions_reframe]
      simp [deeper]
    · obtain ⟨harranged, hrest⟩ := List.forall_mem_cons.mp hstmts
      obtain ⟨hspan, hinside⟩ := hw.stmt hstmt harranged
      have hregions := (hs.stmt hstmt).regions
      rw [Core.stmtsInside, Core.Stmt.inside_flagged]
      refine Accounts.cons hparts harranged hspan hinside hregions (fun n hn => ?_)
        (ih hafter hrest hparts.behind)
      rw [Context.here_unreachable (hregions.trans hn)]

theorem accounts_checkBlock {block : Surface.Block} {out : Core.Block × BlockFrame} {around : Span}
    (h : checkBlock ask block scope c = .ok out d) (hstmts : ∀ s ∈ block.stmts, s.Arranged)
    (hparts : around.Ordered (block.stmts.map (·.span))) : Accounts [around] c d out.1.inside := by
  obtain ⟨stmts, c₁, hchecked, hsettle, rfl⟩ := checkBlock_eq_ok h
  have hsettled : d.warnings = (c₁.reframe closed).warnings := warnings_settleMoves hsettle
  exact (accounts_checkStmts hs hw hchecked hstmts hparts).congr (c.regions_reframe _) rfl hsettled

omit hs hw in
theorem filled_checkBlock {block : Surface.Block} {out : Core.Block × BlockFrame}
    (h : checkBlock ask block scope c = .ok out d) (hstmts : block.stmts ≠ []) :
    out.1.inside ≠ [] := by
  obtain ⟨stmts, c₁, hchecked, -, rfl⟩ := checkBlock_eq_ok h
  exact filled_checkStmts hchecked hstmts

omit hs in
theorem accounts_checkArm {block : Surface.Block} {dead : Bool} {out : Core.Block × BlockFrame}
    (h : checkArm ask block dead scope c = .ok out d) (hblock : block.Arranged) :
    Accounts [block.span.tail] c d out.1.inside := by
  cases hblock with
  | intro hparts hstmts =>
    rcases checkArm_eq_ok h with ⟨-, harm⟩ | ⟨-, _, c₁, harm, rfl, rfl⟩
    · exact hw.block harm hstmts _ hparts
    · exact accounts_region hparts hstmts (hw.filled harm) fun region hordered =>
        hw.block harm hstmts region hordered

theorem accounts_checkBranches {b b' : Branching} {branches : List (Surface.Expr × Surface.Block)}
    {out : List (Core.Expr × Core.Block)} (h : checkBranches ask scope b branches c = .ok (out, b') d)
    (hblocks : ∀ block ∈ branches.map (·.2), block.Arranged)
    (happart : ((branches.map (·.2)).map (·.span)).Pairwise fun p q => p.stop ≤ q.start) :
    Accounts (((branches.map (·.2)).map (·.span)).map Span.tail) c d (Core.branchesInside out) := by
  induction branches generalizing b c out with
  | nil =>
    cases h
    exact .nil _ rfl
  | cons branch rest ih =>
    obtain ⟨test, block, outcome, checked, b₁, c₁, c₂, htest, harm, hrest, hout⟩ :=
      checkBranches_cons_eq_ok h
    cases hout
    obtain ⟨harranged, harrangedRest⟩ := List.forall_mem_cons.mp hblocks
    obtain ⟨hbehind, happart⟩ := List.pairwise_cons.mp happart
    have htested : c.Steps Frame.Rests c₁ := (hs.expr rfl htest).rests
    have hbranch : Accounts [branch.2.span.tail] c c₂ block.inside :=
      (accounts_checkArm hw harm harranged).congr htested.advances.regions (hw.expr rfl htest) rfl
    refine hbranch.append (ih hrest harrangedRest happart) ?_ ?_
    · exact (htested.transRests (rests_checkArm hs harm)).advances.regions
    · exact Span.apart_tails (List.forall_mem_singleton.mpr hbehind)

omit hs in
theorem accounts_checkOtherwise {b b' : Branching} {otherwise : Option Surface.Block}
    {last : Option Core.Block} (h : checkOtherwise ask scope b otherwise c = .ok (last, b') d)
    (hblock : ∀ block ∈ otherwise.toList, block.Arranged) :
    Accounts ((otherwise.toList.map (·.span)).map Span.tail) c d (Core.otherwiseInside last) := by
  cases otherwise with
  | none =>
    cases h
    exact .nil _ rfl
  | some body =>
    obtain ⟨block, outcome, harm, hout⟩ := checkOtherwise_some_eq_ok h
    cases hout
    exact accounts_checkArm hw harm (hblock body (by simp))

theorem accounts_condStmt {branches : List (Surface.Expr × Surface.Block)}
    {otherwise : Option Surface.Block} {kind : Core.StmtKind}
    (h : condStmt ask branches otherwise scope c = .ok kind d)
    (hblocks : ∀ block ∈ branches.map (·.2) ++ otherwise.toList, block.Arranged)
    (happart : ((branches.map (·.2) ++ otherwise.toList).map (·.span)).Pairwise
      fun p q => p.stop ≤ q.start) :
    Accounts (((branches.map (·.2) ++ otherwise.toList).map (·.span)).map Span.tail) c d
      kind.inside := by
  obtain ⟨checked, b, last, b', c₁, c₂, hbranches, hotherwise, rfl, rfl⟩ := condStmt_eq_ok h
  obtain ⟨hbranch, hlast⟩ := List.forall_mem_append.mp hblocks
  rw [List.map_append] at happart ⊢
  rw [List.map_append]
  obtain ⟨hapart, -, hbehind⟩ := List.pairwise_append.mp happart
  exact ((accounts_checkBranches hs hw hbranches hbranch hapart).append
    (accounts_checkOtherwise hw hotherwise hlast) (rests_checkBranches hs hbranches).advances.regions
    (Span.apart_tails hbehind)).behind rfl

/-! ## Loops -/

omit hs in
theorem accounts_optionalStmt {stmt : Option Surface.Stmt} {out : Option Core.Stmt}
    (h : optionalStmt ask scope stmt c = .ok out d) (hstmt : ∀ s ∈ stmt.toList, s.Arranged) :
    Accounts ((stmt.toList.map (·.span)).map Span.tail) c d (Core.optionalInside out) := by
  cases stmt with
  | none =>
    cases h
    exact .nil _ rfl
  | some stmt =>
    obtain ⟨s, hchecked, rfl⟩ := optionalStmt_some_eq_ok h
    exact (hw.stmt hchecked (hstmt stmt (by simp))).2

/-- The body of a loop is checked in front of the step, and stands behind it. -/
theorem accounts_loopStmt {form : LoopForm} {kind : Core.StmtKind}
    (h : loopStmt ask form scope c = .ok kind d)
    (hheader : ∀ s ∈ form.init.toList ++ form.step.toList, s.Arranged) (hbody : form.body.Arranged)
    (happart : ((form.init.toList ++ form.step.toList).map (·.span) ++ [form.body.span]).Pairwise
      fun p q => p.stop ≤ q.start) :
    Accounts (((form.init.toList ++ form.step.toList).map (·.span) ++ [form.body.span]).map Span.tail)
      c d kind.inside := by
  obtain ⟨c₁, c₂, steps, hsettle, hd, rfl⟩ := loopStmt_eq_ok h
  obtain ⟨hinit, hstep⟩ := List.forall_mem_append.mp hheader
  have hrow : (form.init.toList ++ form.step.toList).map (·.span) ++ [form.body.span] =
      form.init.toList.map (·.span) ++ (form.step.toList.map (·.span) ++ [form.body.span]) := by
    rw [List.map_append, List.append_assoc]
  rw [hrow] at happart ⊢
  obtain ⟨-, hstepApart, hinitApart⟩ := List.pairwise_append.mp happart
  obtain ⟨-, -, hbodyApart⟩ := List.pairwise_append.mp hstepApart
  have hregions : steps.entered.regions = c.regions :=
    (advances_optionalStmt hs steps.hinit).regions.trans (Context.regions_reframe _ _)
  have htested : steps.tested.regions = steps.entered.regions :=
    (rests_loopCondition hs steps.hcondition).advances.regions.trans (Context.regions_reframe _ _)
  have hbehind : steps.behind.regions = steps.entered.regions :=
    (rests_checkArm hs steps.hbody).advances.regions.trans htested
  have hquiet : steps.tested.warnings = (steps.entered.reframe _).warnings :=
    warnings_loopCondition hw steps.hcondition
  have hinitial : Accounts ((form.init.toList.map (·.span)).map Span.tail) c steps.entered
      (Core.optionalInside steps.init) :=
    (accounts_optionalStmt hw steps.hinit hinit).congr (Context.regions_reframe _ _) rfl rfl
  have hbodied : Accounts [form.body.span.tail] steps.entered steps.behind steps.body.inside :=
    (accounts_checkArm hw steps.hbody hbody).congr htested hquiet rfl
  have hiteration := hbodied.append (accounts_optionalStmt hw steps.hstep hstep) hbehind fun p hp q hq =>
    (Span.apart_tails hbodyApart q hq p hp).symm
  have hsame (p : Span) (hp : p ∈ [form.body.span.tail] ++
      (form.step.toList.map (·.span)).map Span.tail) :
      p ∈ (form.step.toList.map (·.span) ++ [form.body.span]).map Span.tail := by
    rw [List.map_append]
    exact List.mem_append.mpr (List.mem_append.mp hp).symm
  have hloop := hinitial.append hiteration hregions fun p hp q hq =>
    Span.apart_tails hinitApart p hp q (hsame q hq)
  refine (hloop.behind ?_).mono fun p hp => ⟨p, ?_, .refl p⟩
  · have hsettled : c₂.warnings = (c₁.reframe (closed ∘ leaveLoop)).warnings :=
      warnings_settleMoves hsettle
    rw [hd]
    split <;> exact hsettled
  · rw [List.map_append]
    exact List.mem_append.mpr ((List.mem_append.mp hp).imp_right (hsame p))

theorem accounts_checkStmt {s : Surface.Stmt} {out : Core.Stmt}
    (h : checkStmt ask s scope c = .ok out d) (harranged : s.Arranged) :
    out.span = s.span ∧ Accounts [s.span.tail] c d out.inside := by
  obtain ⟨kind, hkind, rfl⟩ := checkStmt_eq_ok h
  refine ⟨rfl, ?_⟩
  show Accounts [s.span.tail] c d kind.inside
  cases harranged with
  | intro _ hparts hheader hblocks =>
    suffices hkind : Accounts (s.kind.parts.map Span.tail) c d kind.inside by
      refine hkind.mono fun p hp => ⟨_, List.mem_singleton_self _, ?_⟩
      obtain ⟨q, hq, rfl⟩ := List.mem_map.mp hp
      exact (hparts.inside q hq).tail
    refine stmtKind_elim hkind ?_ ?_ ?_ ?_ ?_ ?_ ?_ ?_
    · intro decl _ h
      have hquiet := warnings_declStmt hw h
      obtain ⟨steps, rfl⟩ := declStmt_eq_ok h
      exact .nil _ hquiet
    · intro target op value _ h
      have hquiet := warnings_assignStmt hw h
      obtain ⟨steps, rfl⟩ := assignStmt_eq_ok h
      exact .nil _ hquiet
    · intro e _ h
      have hquiet := warnings_exprStmt hw h
      obtain ⟨value, -, rfl⟩ := exprStmt_eq_ok h
      exact .nil _ hquiet
    · intro value _ h
      have hquiet := warnings_returnStmt hw h
      obtain ⟨out, c₁, -, rfl, -⟩ := returnStmt_eq_ok h
      exact .nil _ hquiet
    · intro jump label _ h
      have hquiet := warnings_jumpStmt h
      obtain ⟨i, loop, c₁, -, -, rfl, -⟩ := jumpStmt_eq_ok h
      cases jump <;> exact .nil _ hquiet
    · intro branches otherwise hform h
      rw [hform] at hparts hblocks ⊢
      exact accounts_condStmt hs hw h hblocks hparts.apart
    · rintro form (hform | ⟨e, hloop, hform⟩) h
      · rw [hform] at hparts hheader hblocks ⊢
        exact accounts_loopStmt hs hw h hheader (hblocks _ (List.mem_singleton_self _)) hparts.apart
      · rw [hform] at hparts hheader hblocks ⊢
        rw [hloop] at h
        exact accounts_loopStmt hs hw h hheader (hblocks _ (List.mem_singleton_self _)) hparts.apart
    · intro block hform h
      rw [hform] at hblocks ⊢
      obtain ⟨out, c₁, hblock, rfl, rfl⟩ := scopeStmt_eq_ok h
      cases hblocks block (List.mem_singleton_self _) with
      | intro hinside hstmts => exact (hw.block hblock hstmts _ hinside).behind rfl

theorem Warns.step : Warns (step ask) where
  quiet q hq w :=
    (hw.stable w).step
      (preserves_resolveGlobal (hw.stable w) (fun _ _ hc => hc) fun _ _ _ _ hc => hc) q hq
  stmt h harranged := accounts_checkStmt hs hw h harranged
  block h hstmts _ hparts := accounts_checkBlock hs hw h hstmts hparts
  filled h hstmts := filled_checkBlock h hstmts

end

theorem warns_answerTo (n : Nat) : Warns (answerTo n) := by
  induction n with
  | zero =>
    refine ⟨fun _ _ _ => Run.preserves_stop _, fun h => ?_, fun h => ?_, fun h => ?_⟩
    all_goals cases h
  | succ n ih => exact ih.step (steady_answerTo n)

/-! ## Bodies -/

theorem warnings_declareParams {params : List (Surface.Param × Ty)} {ids : List LocalId}
    (h : declareParams params c = .ok ids d) : d.warnings = c.warnings := by
  induction params generalizing c ids with
  | nil =>
    cases h
    rfl
  | cons param rest ih =>
    obtain ⟨id, c₁, hid, hrest⟩ := Run.bind_eq_ok.mp h
    obtain ⟨ids', c₂, hids, hreturn⟩ := Run.bind_eq_ok.mp hrest
    cases hreturn
    rw [ih hids, (declareLocal_eq_ok hid).2]
    rfl

theorem warnings_declareReceiver {decl : Surface.FnDecl} {owner : Option StructId}
    {params : List Ty} {out : List LocalId × List Ty}
    (h : declareReceiver decl owner params c = .ok out d) : d.warnings = c.warnings := by
  unfold declareReceiver at h
  split at h
  · split at h
    · obtain ⟨id, c₁, hid, hrest⟩ := Run.bind_eq_ok.mp h
      obtain ⟨_, c₂, hreceiver, hreturn⟩ := Run.bind_eq_ok.mp hrest
      cases hreceiver
      cases hreturn
      obtain ⟨-, rfl⟩ := declareLocal_eq_ok hid
      rfl
    · cases h
      rfl
  · cases h
    rfl

/-- The `return` at the end of a body is reached, and stands for all of the body. -/
theorem inside_finalReturn {f : Frame} {decl : Surface.FnDecl} {display : String}
    {last : List Core.Stmt} (h : finalReturn f decl display = .ok last) :
    ∀ s ∈ Core.stmtsInside last, s.unreachable = false ∧
      s.span = (decl.body.map (·.span)).getD decl.span := by
  unfold finalReturn at h
  split at h
  · cases h
    exact List.forall_mem_nil _
  · split at h
    · cases h
    · cases h
      exact List.forall_mem_singleton.mpr ⟨rfl, rfl⟩

/-- No warning is raised in front of the statements of a body. -/
theorem warnings_entered (hw : Warns ask) {id : GlobalId} {decl : Surface.FnDecl}
    {owner : Option StructId} {display : String} {params : List Ty} {returns : Ty}
    (steps : BodySteps ask id decl owner display scope params returns c d) :
    steps.entered.warnings = c.warnings :=
  calc steps.entered.warnings = steps.received.warnings := warnings_declareParams steps.hparams
    _ = (opened steps.laid id returns).warnings := warnings_declareReceiver steps.hreceiver
    _ = steps.laid.warnings := rfl
    _ = c.warnings := hw.evaluated steps.hlaid fun _ hP => preserves_completeParams hP.answers _

/-- The warnings that checking a body raises are exact for its statements. -/
theorem marks_checkBody {id : GlobalId} {body : Body}
    (hid : ∀ decl owner, (c.global id).kind = .function decl owner → decl.Arranged)
    (h : checkBody answer id c = .ok body d) :
    ∃ raised, d.warnings.toList = c.warnings.toList ++ raised ∧ Marks body.block.inside raised := by
  have hw := warns_answerTo nestingBound
  obtain ⟨decl, owner, t, params, variadic, returns, c₁, hkind, htype, -, hbody⟩ := checkBody_eq_ok h
  obtain ⟨steps, rfl⟩ := checkTypedBody_eq_ok hbody
  obtain ⟨hstmts, hparts⟩ := (hid decl owner hkind).stmts
  have hstart : steps.entered.warnings = c.warnings := (warnings_entered hw steps).trans (hw.expr rfl htype)
  have hregions : steps.entered.regions = some 0 := by
    obtain ⟨f, hframe, hf⟩ := steps.entering
    rw [Context.regions, hframe]
    exact congrArg some hf.unreachable
  obtain ⟨raised, hraised, hmarks, hin⟩ :=
    (accounts_checkStmts (steady_answerTo nestingBound) hw steps.hstmts hstmts hparts).live hregions
  have hlast := inside_finalReturn steps.hlast
  refine ⟨raised, ?_, ?_⟩
  · rw [steps.hclosed, ← hstart]
    exact hraised
  · have hboth := hmarks.append (marks_nil fun s hs => (hlast s hs).1) (fun _ _ _ => nofun)
      (fun s hs w hmem hwithin => ?_) fun _ _ _ => nofun
    · rwa [List.append_nil, ← Core.stmtsInside_append] at hboth
    · -- The `return` starts where the body does, and every region behind its bracket.
      obtain ⟨p, hp, hplace⟩ := hin w hmem
      rw [List.mem_singleton.mp hp] at hplace
      rw [(hlast s hs).2] at hwithin
      exact absurd (hplace.2.1.trans hwithin.2.1) (Nat.not_succ_le_self _)

end Check

end OwnLang
