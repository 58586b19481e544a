/-!
# Places in source texts

A `Span` is a stretch of one file, counted in bytes of its UTF-8 text. Tokens, syntax nodes and
diagnostics carry one.
-/

namespace OwnLang

/-- The bytes of `file` from offset `start` up to, and not including, offset `stop`. -/
structure Span where
  file : String
  start : Nat
  stop : Nat
deriving DecidableEq, Inhabited

namespace Span

/-- The span of things that stand in no file, such as a missing entry point. -/
def null : Span := ⟨"<null>", 0, 0⟩

/-- The empty span at one offset. -/
def point (file : String) (offset : Nat) : Span := ⟨file, offset, offset⟩

/-- From the start of `s` to the end of `t`. -/
def upTo (s t : Span) : Span := { s with stop := t.stop }

/-- Whether `s` lies inside `t`. -/
def Within (s t : Span) : Prop := s.file = t.file ∧ t.start ≤ s.start ∧ s.stop ≤ t.stop

instance (s t : Span) : Decidable (s.Within t) := by unfold Within; infer_instance

end Span

end OwnLang
