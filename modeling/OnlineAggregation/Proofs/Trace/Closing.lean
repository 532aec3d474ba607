import Mathlib
import OnlineAggregation.Trace.Convergence

/-!
# Closing a trace

A trace gets estimates in three ways: in any case, if they are due, or as the final one. Main
statements: whatever is done to a trace, its entries stay as they are, and what is added are
estimates that were handed in, in their order. The final estimate is added unless the latest entry
has its count; so it is the latest entry afterwards, unless a different estimate of the same count
was, and closing the trace with it once more changes nothing.
-/

namespace OnlineAggregation.ConvergenceTrace

/-! ## §1 One move -/

/-- What is done to a trace. -/
inductive Move where
  /-- An estimate is kept whatever its count. -/
  | push (e : Estimate)
  /-- An estimate is kept if it is due. -/
  | record (e : Estimate)
  /-- The trace is closed with the final estimate. -/
  | finish (e : Estimate)
deriving DecidableEq

/-- The estimate that is handed in. -/
def Move.estimate : Move → Estimate
  | push e | record e | finish e => e

/-- The trace after a move. -/
def after (t : ConvergenceTrace) : Move → ConvergenceTrace
  | .push e => t.push e
  | .record e => t.record e
  | .finish e => t.finish e

/-- The trace after some moves, the first of the list first. -/
def afterAll (t : ConvergenceTrace) (moves : List Move) : ConvergenceTrace :=
  moves.foldl after t

section Moves

variable {t : ConvergenceTrace} {e : Estimate}

/-- **What a move does**: the entries stay, and behind them comes the estimate of the move, or
nothing. -/
theorem exists_toList_after (t : ConvergenceTrace) (m : Move) :
    ∃ added : List Estimate, added.Sublist [m.estimate] ∧
      (t.after m).entries.toList = t.entries.toList ++ added := by
  cases m with
  | push e => exact ⟨[e], .refl _, toList_push t e⟩
  | record e => exact ⟨[e].filter t.keeps, List.filter_sublist, toList_record t e⟩
  | finish e =>
    refine ⟨_, ?_, toList_finish t e⟩
    simp only [Move.estimate]
    split
    · exact List.nil_sublist _
    · exact .refl _

/-! ## §2 Any number of moves -/

/-- **A trace only grows**, and by estimates of the moves in their order. -/
theorem exists_toList_afterAll (t : ConvergenceTrace) (moves : List Move) :
    ∃ added : List Estimate, added.Sublist (moves.map Move.estimate) ∧
      (t.afterAll moves).entries.toList = t.entries.toList ++ added := by
  induction moves generalizing t with
  | nil => exact ⟨[], .refl _, by simp [afterAll]⟩
  | cons m moves ih =>
    obtain ⟨first, hfirst, hafter⟩ := exists_toList_after t m
    obtain ⟨others, hothers, hall⟩ := ih (t.after m)
    refine ⟨first ++ others, hfirst.append hothers, ?_⟩
    calc ((t.after m).afterAll moves).entries.toList
        = (t.after m).entries.toList ++ others := hall
      _ = t.entries.toList ++ (first ++ others) := by simp [hafter]

/-- From an empty trace the latest entry was handed in. -/
theorem mem_estimates_of_latest {schedule : Schedule} {moves : List Move}
    (h : ((empty schedule).afterAll moves).latest = some e) : e ∈ moves.map Move.estimate := by
  obtain ⟨added, hadded, hentries⟩ := exists_toList_afterAll (empty schedule) moves
  rw [latest_eq_getLast?, hentries] at h
  apply hadded.subset
  simpa [empty] using List.mem_of_getLast? h

/-! ## §3 The final estimate -/

/-- **The final estimate is the latest entry** afterwards, unless a different one of its count was
before. -/
theorem latest_finish_eq_iff :
    (t.finish e).latest = some e ↔ ∀ d, t.latest = some d → d.count = e.count → d = e := by
  by_cases hsame : t.latest.map Estimate.count = some e.count
  · -- The trace is left as it is, so its latest entry decides.
    obtain ⟨d, hd, hcount⟩ := Option.map_eq_some_iff.mp hsame
    rw [finish_of_count_eq hsame, hd]
    simp [hcount]
  · rw [finish_of_count_ne hsame]
    constructor
    · intro _ d hd hcount
      exact absurd (by simp [hd, hcount]) hsame
    · exact fun _ => latest_push t e

/-- Only the first of two equal ends can add something. -/
theorem finish_finish (t : ConvergenceTrace) (e : Estimate) :
    (t.finish e).finish e = t.finish e :=
  finish_of_count_eq (count_latest_finish t e)

end Moves

/-- **Closing a trace**, whatever was done to it before. The entries are kept in their order, and the
final estimate comes behind them if the latest entry has another count, and else nothing. So the
latest entry has its count, and it is the final estimate if and only if no different estimate of that
count was the latest entry; in particular if no different estimate of that count was handed in.
Nothing is added if the final estimate was the latest entry already, and nothing if the trace is
closed with it for a second time. -/
theorem finish_adds_unless_counted (schedule : Schedule) (moves : List Move) (e : Estimate) :
    let t := (empty schedule).afterAll moves
    let closed := t.finish e
    (closed.entries.toList =
        t.entries.toList ++ if t.latest.map Estimate.count = some e.count then [] else [e]) ∧
      closed.latest.map Estimate.count = some e.count ∧
      (closed.latest = some e ↔ ∀ d, t.latest = some d → d.count = e.count → d = e) ∧
      ((∀ m ∈ moves, m.estimate.count = e.count → m.estimate = e) → closed.latest = some e) ∧
      (t.latest = some e → closed = t) ∧
      closed.finish e = closed := by
  intro t closed
  refine ⟨toList_finish t e, count_latest_finish t e, latest_finish_eq_iff, ?_, ?_,
    finish_finish t e⟩
  · intro honly
    apply latest_finish_eq_iff.mpr
    intro d hd hcount
    -- What is the latest entry now was the estimate of some move.
    obtain ⟨m, hm, rfl⟩ := List.mem_map.mp (mem_estimates_of_latest hd)
    exact honly m hm hcount
  · intro hlatest
    exact finish_of_count_eq (by simp [hlatest])

/-- An estimate of a count that was not kept is added. -/
theorem finish_adds_unless_counted_third :
    let d : Estimate := ⟨2, 1.5, 2.0, 0.9⟩
    let e : Estimate := ⟨3, 2.0, 1.5, 0.9⟩
    (((empty (.every 2)).afterAll [.record d, .finish d]).finish e).latest = some e := by
  intro d e
  obtain ⟨-, -, -, hkept, -, -⟩ :=
    finish_adds_unless_counted (.every 2) [.record d, .finish d] e
  exact hkept (by decide)

/-- Of two different estimates of one count the second is lost, although it is the final one. -/
theorem latest_finish_ne_of_count :
    let d : Estimate := ⟨1, 1.0, 0.5, 0.9⟩
    let e : Estimate := ⟨1, 2.0, 0.5, 0.9⟩
    (e.mean.isNaN = false ∧ e.epsilon.isNaN = false ∧ e.confidence.isNaN = false) ∧
      (((empty .default).afterAll [.push d]).finish e).latest = some d ∧ d ≠ e := by
  decide

end OnlineAggregation.ConvergenceTrace
