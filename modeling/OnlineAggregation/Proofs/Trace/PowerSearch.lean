import Mathlib
import OnlineAggregation.Trace.Schedule

/-!
# The search for a power

Whether a count is a power of a base is found out by looking at one exponent after the other, until
a power is the count, or is beyond it, or does not fit in a word. Main statements: a look tells
nothing only while the power is below the count, and from base two on the powers grow; so the search
ends with an exponent of 64 at most, its answer is whether the count is a power, and the schedule
gives the same answer. Schedules are exact on all 64-bit counts.
-/

namespace OnlineAggregation.Schedule

open Numeric (wordPower? wordSize wordPower?_eq_some_iff)

variable {base count exponent last : ℕ} {answer : Bool}

/-! ## §1 One exponent -/

/-- What a look at one exponent tells about a count: whether it is a power, or nothing yet. -/
def look (base count exponent : ℕ) : Option Bool :=
  match wordPower? base exponent with
  -- No higher power fits in a word either.
  | none => some false
  | some power =>
    if count < power then some false else if power = count then some true else none

/-- A power that does not fit in a word is beyond every count. -/
theorem look_eq (hcount : count < wordSize) :
    look base count exponent =
      if base ^ exponent < count then none else some (decide (base ^ exponent = count)) := by
  unfold look
  split
  · rename_i hnone
    have hlarge : wordSize ≤ base ^ exponent := by
      by_contra hfits
      have hsome := wordPower?_eq_some_iff.mpr ⟨rfl, not_le.mp hfits⟩
      simp [hnone] at hsome
    rw [if_neg (by omega), decide_eq_false (by omega)]
  · rename_i power hsome
    obtain ⟨rfl, -⟩ := wordPower?_eq_some_iff.mp hsome
    simp only [Nat.pow_eq]
    rcases lt_trichotomy (base ^ exponent) count with hbelow | hequal | hbeyond
    · simp [hbelow, hbelow.le, hbelow.ne]
    · simp [hequal]
    · simp [hbeyond, hbeyond.ne', hbeyond.le]

/-- The search goes on while the power is below the count. -/
theorem look_eq_none_iff (hcount : count < wordSize) :
    look base count exponent = none ↔ base ^ exponent < count := by
  simp [look_eq hcount]

/-- It is over as soon as the power is not below the count, and then it has compared them. -/
theorem look_eq_some_iff (hcount : count < wordSize) :
    look base count exponent = some answer ↔
      count ≤ base ^ exponent ∧ (answer = true ↔ count = base ^ exponent) := by
  rw [look_eq hcount]
  split
  · simp
    omega
  · cases answer <;> simp <;> omega

/-! ## §2 All exponents -/

/-- `Search base count exponent last answer`: of the looks at the exponents from `exponent` on, the
first one that tells something is that at `last`, and it tells `answer`. -/
inductive Search (base count : ℕ) : ℕ → ℕ → Bool → Prop where
  | told {exponent : ℕ} {answer : Bool} (h : look base count exponent = some answer) :
      Search base count exponent exponent answer
  | untold {exponent last : ℕ} {answer : Bool} (h : look base count exponent = none)
      (later : Search base count (exponent + 1) last answer) :
      Search base count exponent last answer

/-- **What the search answers**: whether the count is a power with one of the exponents. -/
theorem Search.answer_iff (h : Search base count exponent last answer) (hcount : count < wordSize)
    (hbase : 2 ≤ base) : answer = true ↔ ∃ n, exponent ≤ n ∧ count = base ^ n := by
  induction h with
  | @told exponent answer hlook =>
    obtain ⟨hreached, hanswer⟩ := (look_eq_some_iff hcount).mp hlook
    rw [hanswer]
    constructor
    · exact fun hequal => ⟨exponent, le_rfl, hequal⟩
    · rintro ⟨n, hn, rfl⟩
      -- The powers from here on are not below the one that has reached the count.
      exact le_antisymm hreached (Nat.pow_le_pow_right (by omega) hn)
  | @untold exponent last answer hlook later ih =>
    have hbelow := (look_eq_none_iff hcount).mp hlook
    rw [ih]
    constructor
    · rintro ⟨n, hn, hequal⟩
      exact ⟨n, by omega, hequal⟩
    · rintro ⟨n, hn, rfl⟩
      -- The exponent that has told nothing is not that of the count.
      exact ⟨n, lt_of_le_of_ne hn (by rintro rfl; omega), rfl⟩

/-- From base two on no power with an exponent of 64 or more is below a count. -/
theorem exponent_lt_of_look (hcount : count < wordSize) (hbase : 2 ≤ base)
    (hlook : look base count exponent = none) : exponent < 64 := by
  have hbelow := (look_eq_none_iff hcount).mp hlook
  have hgrows : 2 ^ exponent ≤ base ^ exponent := Nat.pow_le_pow_left hbase exponent
  have hword : 2 ^ exponent < 2 ^ 64 := (hgrows.trans_lt hbelow).trans hcount
  exact (Nat.pow_lt_pow_iff_right (by norm_num)).mp hword

/-- **The search ends**, at an exponent of 64 at most. -/
theorem exists_search (hcount : count < wordSize) (hbase : 2 ≤ base) (hexponent : exponent ≤ 64) :
    ∃ last ≤ 64, ∃ answer, Search base count exponent last answer := by
  -- The induction goes down from the last exponent that can be reached.
  induction hexponent using Nat.decreasingInduction with
  | self =>
    cases hlook : look base count 64 with
    | none => exact absurd (exponent_lt_of_look hcount hbase hlook) (lt_irrefl 64)
    | some answer => exact ⟨64, le_rfl, answer, .told hlook⟩
  | of_succ exponent hlt ih =>
    cases hlook : look base count exponent with
    | none =>
      obtain ⟨last, hlast, answer, hsearch⟩ := ih
      exact ⟨last, hlast, answer, .untold hlook hsearch⟩
    | some answer => exact ⟨exponent, hlt.le, answer, .told hlook⟩

/-! ## §3 Schedules -/

/-- A geometric schedule asks for the powers of its base. -/
theorem isDue_geometric_iff (hcount : count < wordSize) :
    (geometric base).isDue count = true ↔ ∃ n, count = max base 2 ^ n := by
  simp only [isDue, powers, List.contains_eq_mem, decide_eq_true_eq, List.mem_filterMap,
    List.mem_range, wordPower?_eq_some_iff, Nat.pow_eq]
  constructor
  · rintro ⟨n, -, hequal, -⟩
    exact ⟨n, hequal.symm⟩
  · rintro ⟨n, rfl⟩
    refine ⟨n, ?_, rfl, hcount⟩
    -- The power fits in a word, so its exponent is one of those in the list.
    have hword : 2 ^ n < 2 ^ 64 := (Nat.pow_le_pow_left (by omega) n).trans_lt hcount
    exact (Nat.pow_lt_pow_iff_right (by norm_num)).mp hword

/-- **Schedules are exact** on all counts of a word, for every step and every base. A count is due
every so many if it is a positive multiple of the step, and geometrically if it is a power of the
base, both as whole numbers of any size. The search over the exponents ends for every count, after
64 steps at most, and says what the schedule says. So no power that is a count is missed, the
greatest ones included, and zero is never due. -/
theorem isDue_exact_on_words (hcount : count < 2 ^ 64) (step base : ℕ) :
    ((every step).isDue count = true ↔ 0 < count ∧ max step 1 ∣ count) ∧
      ((geometric base).isDue count = true ↔ ∃ n : ℕ, count = max base 2 ^ n) ∧
      (∃ last ≤ 64, Search (max base 2) count 0 last ((geometric base).isDue count)) ∧
      (∀ last answer, Search (max base 2) count 0 last answer →
        answer = (geometric base).isDue count) ∧
      (∀ n : ℕ, max base 2 ^ n < 2 ^ 64 → (geometric base).isDue (max base 2 ^ n) = true) ∧
      ∀ s : Schedule, s.isDue 0 = false := by
  have hbase : 2 ≤ max base 2 := le_max_right base 2
  have hanswer : ∀ last answer, Search (max base 2) count 0 last answer →
      answer = (geometric base).isDue count := by
    intro last answer hsearch
    have hpower := hsearch.answer_iff hcount hbase
    simp only [Nat.zero_le, true_and] at hpower
    exact Bool.eq_iff_iff.mpr (hpower.trans (isDue_geometric_iff hcount).symm)
  refine ⟨?_, isDue_geometric_iff hcount, ?_, hanswer, ?_, isDue_zero⟩
  · rw [isDue_every_iff, Nat.pos_iff_ne_zero]
  · obtain ⟨last, hlast, answer, hsearch⟩ := exists_search hcount hbase (Nat.zero_le 64)
    exact ⟨last, hlast, hanswer last answer hsearch ▸ hsearch⟩
  · exact fun n hword => (isDue_geometric_iff hword).mpr ⟨n, rfl⟩

/-- The greatest powers of two and of three that are counts are due. -/
theorem isDue_exact_on_words_greatest :
    (2 ^ 63 < 2 ^ 64 ∧ (geometric 0).isDue (2 ^ 63) = true) ∧
      (3 ^ 40 < 2 ^ 64 ∧ 2 ^ 64 < 3 ^ 41 ∧ (geometric 3).isDue (3 ^ 40) = true) := by
  have htwo : 2 ^ 63 < 2 ^ 64 := by norm_num
  have hthree : 3 ^ 40 < 2 ^ 64 := by norm_num
  obtain ⟨-, hdueTwo, -⟩ := isDue_exact_on_words htwo 0 0
  obtain ⟨-, hdueThree, -⟩ := isDue_exact_on_words hthree 0 3
  exact ⟨⟨htwo, hdueTwo.mpr ⟨63, rfl⟩⟩, hthree, by norm_num, hdueThree.mpr ⟨40, rfl⟩⟩

end OnlineAggregation.Schedule
