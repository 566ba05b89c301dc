import TaggedStream.Cursor

/-!
# Calls one after the other

A reader is a state with a step: every call answers something and leaves the next state.

* `stateAfter step s n`   the state after `n` calls
* `answer step s n`       what call number `n` answers, counted from 0
* `Checked.answer`, `Lenient.answer`, `Layout.answer`   the answers of the three tiers, whose steps
                          are `Checked.next`, `Lenient.next` and `Layout.trust`
-/

namespace TaggedStream

section
variable {σ α : Type} (step : σ → α × σ)

def stateAfter (s : σ) : Nat → σ
  | 0 => s
  | n + 1 => stateAfter (step s).2 n

def answer (s : σ) (n : Nat) : α := (step (stateAfter step s n)).1

theorem stateAfter_succ (s : σ) (n : Nat) :
    stateAfter step s (n + 1) = stateAfter step (step s).2 n := rfl
theorem answer_succ (s : σ) (n : Nat) : answer step s (n + 1) = answer step (step s).2 n := rfl

theorem stateAfter_succ' (s : σ) (n : Nat) :
    stateAfter step s (n + 1) = (step (stateAfter step s n)).2 := by
  induction n generalizing s with
  | zero => rfl
  | succ n ih => rw [stateAfter_succ, ih, stateAfter_succ]

theorem stateAfter_add (s : σ) (n m : Nat) :
    stateAfter step (stateAfter step s n) m = stateAfter step s (n + m) := by
  induction m with
  | zero => rfl
  | succ m ih => rw [stateAfter_succ', ih, ← Nat.add_assoc, stateAfter_succ']

theorem stateAfter_of_fixed {s : σ} (h : (step s).2 = s) (n : Nat) : stateAfter step s n = s := by
  induction n with
  | zero => rfl
  | succ n ih => rw [stateAfter_succ, h, ih]

theorem answer_of_fixed {s : σ} (h : (step s).2 = s) (n : Nat) :
    answer step s n = (step s).1 := by
  rw [answer, stateAfter_of_fixed step h]

end

/-! ## the three tiers -/

namespace Checked

variable {l : Layout}

/-- the state after `n` calls -/
def after (c : Checked l) (n : Nat) : Checked l := stateAfter next c n

def answer (c : Checked l) (n : Nat) : Except StreamError (Option l.Item) :=
  TaggedStream.answer next c n

theorem answer_succ (c : Checked l) (n : Nat) : c.answer (n + 1) = c.next.2.answer n := rfl

theorem after_succ (c : Checked l) (n : Nat) : c.after (n + 1) = (c.after n).next.2 :=
  stateAfter_succ' next c n

end Checked

namespace Lenient

variable {l : Layout}

def after (c : Lenient l) (n : Nat) : Lenient l := stateAfter next c n

def answer (c : Lenient l) (n : Nat) : Option l.Item := TaggedStream.answer next c n

theorem answer_succ (c : Lenient l) (n : Nat) : c.answer (n + 1) = c.next.2.answer n := rfl

theorem after_succ (c : Lenient l) (n : Nat) : c.after (n + 1) = (c.after n).next.2 :=
  stateAfter_succ' next c n

theorem after_add (c : Lenient l) (n m : Nat) : (c.after n).after m = c.after (n + m) :=
  stateAfter_add next c n m

end Lenient

namespace Layout

/-- a call of the trusting tier; at the end of the body it stays there -/
def trust (l : Layout) (c : Cursor) : Option l.Item × Cursor :=
  match l.next? c with
  | some (item, c') => (some item, c')
  | none => (none, c)

def after (l : Layout) (c : Cursor) (n : Nat) : Cursor := stateAfter l.trust c n

def answer (l : Layout) (c : Cursor) (n : Nat) : Option l.Item := TaggedStream.answer l.trust c n

theorem after_succ (l : Layout) (c : Cursor) (n : Nat) :
    l.after c (n + 1) = (l.trust (l.after c n)).2 :=
  stateAfter_succ' l.trust c n

end Layout
end TaggedStream
