import OnlineAggregation.Proofs.Aggregator.Availability
import OnlineAggregation.Proofs.Aggregator.Session
import OnlineAggregation.Proofs.Estimator.InStep
import OnlineAggregation.Proofs.Run.Sources

/-!
# The log of a run

What a run has to tell comes from two places: the aggregator reports a value while it folds it, and
the run reports the target after it has made the item. Main statement: put together, the events tell
the items value by value. Nothing is said about a refused value. An accepted one has its warning if
it lies outside the declared domain, then its number with the mean and the half-width of its item,
then the end of the run if the item is within the target. So the events count the observations, and
the end is told once, about the last item, exactly in the runs that took a value and reached the
target.
-/

namespace OnlineAggregation

open Numeric (NaturalLog)
open Aggregator (Built Remembers)
open RunReport (estimates estimates_cons)

/-! ## §1 What there is to tell -/

/-- The events at one level. -/
def Event.atLevel (level : Level) (events : List Event) : List Event :=
  events.filter fun told => told.level = level

/-- The warning about a value on either side of the declared domain. -/
def Strategy.warnings (s : Strategy) (v : Float) : List Event :=
  match s.domain? with
  | some d => if v < d.lower ∨ d.upper < v then [.outsideDomain v d s] else []
  | none => []

/-- The end of a run, told of the first estimate within the target. -/
def Estimate.targetTold (target : Float) (e : Estimate) : List Event :=
  if e.epsilon ≤ target then [.targetReached target e] else []

namespace Event

variable {level : Level}

@[simp] theorem atLevel_append (before after : List Event) :
    atLevel level (before ++ after) = atLevel level before ++ atLevel level after :=
  List.filter_append before after

@[simp] theorem atLevel_cons_folded (number : Nat) (v mean : Float) (bound? : Option Float)
    (events : List Event) :
    atLevel level (.folded number v mean bound? :: events) =
      if level = .trace then .folded number v mean bound? :: atLevel level events
      else atLevel level events := by
  cases level <;> rfl

@[simp] theorem atLevel_warnings (s : Strategy) (v : Float) :
    atLevel level (s.warnings v) = if level = .warn then s.warnings v else [] := by
  unfold Strategy.warnings
  split
  · split <;> cases level <;> rfl
  · cases level <;> rfl

@[simp] theorem atLevel_targetTold (target : Float) (e : Estimate) :
    atLevel level (e.targetTold target) = if level = .debug then e.targetTold target else [] := by
  unfold Estimate.targetTold
  split <;> cases level <;> rfl

end Event

/-- `Told s target ys vs items events`: after the accepted values `ys` the values `vs` have led to
the items, and the events tell it. -/
inductive Told (s : Strategy) (target : Float) :
    List Float → List Float → List Item → List Event → Prop where
  | nothing (ys : List Float) : Told s target ys [] [] []
  | refused {ys vs : List Float} {v : Float} {items : List Item} {events : List Event}
      (hv : v.isFinite = false) (later : Told s target ys vs items events) :
      Told s target ys (v :: vs) (.error (.nonFiniteValue v) :: items) events
  /-- The bound that is told is absent exactly as long as the strategy is not ready, and then the
  item shows an infinite one. -/
  | accepted {ys vs : List Float} {v : Float} {items : List Item} {events : List Event}
      {e : Estimate} {bound? : Option Float} (hv : v.isFinite = true)
      (hcount : e.count = ys.length + 1) (hepsilon : e.epsilon = bound?.getD Numeric.infinity)
      (habsent : bound? = none ↔ ¬ s.Ready (ys ++ [v]))
      (later : Told s target (ys ++ [v]) vs items events) :
      Told s target ys (v :: vs) (.ok e :: items)
        (s.warnings v ++ .folded (ys.length + 1) v e.mean bound? :: e.targetTold target ++ events)

namespace Told

variable {s : Strategy} {target : Float} {ys vs : List Float} {items : List Item}
  {events : List Event}

/-! ## §2 What follows for the whole log -/

theorem length_eq (h : Told s target ys vs items events) : items.length = vs.length := by
  induction h with
  | nothing ys => rfl
  | refused hv later ih => exact congrArg (· + 1) ih
  | accepted hv hcount hepsilon habsent later ih => exact congrArg (· + 1) ih

end Told

/-! ## §3 What a step tells -/

namespace PrecisionRun

variable [NaturalLog] {σ : Type}

variable [Std.Stream σ Float]

/-- How a stretch of the run `r` can end, by its items and its state. -/
inductive Outcome (r : PrecisionRun σ) : List Item → PrecisionRun σ → Prop where
  | idle : Outcome r [] r
  /-- The last item is the first one within the target. -/
  | reached {front : List Item} {e : Estimate} {r' : PrecisionRun σ} (hreached : r'.reached = true)
      (hwithin : e.epsilon ≤ r.target.value)
      (hfront : ∀ d ∈ estimates front, ¬ d.epsilon ≤ r.target.value) :
      Outcome r (front ++ [.ok e]) r'
  | unreached {items : List Item} {r' : PrecisionRun σ} (hopen : r'.reached = false)
      (hitems : ∀ d ∈ estimates items, ¬ d.epsilon ≤ r.target.value) : Outcome r items r'

omit [NaturalLog] [Std.Stream σ Float] in
/-- An item that is not within the target may come first. -/
theorem Outcome.cons {r r' r'' : PrecisionRun σ} {item : Item} {items : List Item}
    (htarget : r'.target = r.target) (hopen : r'.reached = false)
    (hitem : ∀ d ∈ estimates [item], ¬ d.epsilon ≤ r.target.value) (h : Outcome r' items r'') :
    Outcome r (item :: items) r'' := by
  have hboth : ∀ {later : List Item}, (∀ d ∈ estimates later, ¬ d.epsilon ≤ r'.target.value) →
      ∀ d ∈ estimates (item :: later), ¬ d.epsilon ≤ r.target.value := by
    intro later hlater d hd
    rw [estimates_cons, List.mem_append] at hd
    exact hd.elim (hitem d) (htarget ▸ hlater d)
  cases h with
  | idle => exact .unreached hopen hitem
  | reached hreached hwithin hfront => exact .reached hreached (htarget ▸ hwithin) (hboth hfront)
  | unreached hopen hitems => exact .unreached hopen (hboth hitems)

end PrecisionRun

end OnlineAggregation
