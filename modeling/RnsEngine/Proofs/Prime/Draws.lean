import RnsEngine.Proofs.Prime.Walk

/-!
# Sequences of draws

A draw takes the first prime that is left where it looks (`drew_search`): in its direction, or in
the preferred direction followed by the other. Over a sequence of draws the primes that were left in
a direction are those that are drawn there, and those that are left in the end (`ran`). Many draws
in a row, with the preferred direction changing, succeed as long as primes are left
(`drewMany_nextMany`).

A walk that is started has all primes of both its intervals left (`left_start`), so
`draws_enumerate` says what any sequence of calls draws from it. Primes are decided exactly
(`isPrime_iff`), so these are the primes and no other numbers.
-/

namespace RnsEngine

namespace PrimeWalk

/-! ### Draws -/

/-- A draw of one prime, in a direction or in whichever is not used up, one being preferred. -/
inductive Draw where
  | above
  | below
  | either (upward : Bool)

namespace Draw

/-- What a draw takes the first prime of, given what is left in the two directions. -/
def sources (up down : List ℕ) : Draw → List ℕ
  | above => up
  | below => down
  | either true => up ++ down
  | either false => down ++ up

/-- The search of a draw. -/
def search : Draw → PrimeWalk → Option UInt64 × PrimeWalk
  | above => nextAbove
  | below => nextBelow
  | either upward => nextEither upward

end Draw

/-- Performs a draw. -/
def draw (w : PrimeWalk) : Draw → Except Fault UInt64 × PrimeWalk
  | .above => w.drawAbove
  | .below => w.drawBelow
  | .either upward => w.drawEither upward

/-- The walk after a sequence of draws. -/
def after (w : PrimeWalk) (calls : List Draw) : PrimeWalk :=
  calls.foldl (fun w c => (w.draw c).2) w

/-- The primes that a sequence of draws gives. -/
def drawn (w : PrimeWalk) : List Draw → List ℕ
  | [] => []
  | c :: rest => ((w.draw c).1.toOption.map UInt64.toNat).toList ++ (w.draw c).2.drawn rest

/-- So many draws, the preferred direction changing with each. -/
def alternating : ℕ → Bool → List Draw
  | 0, _ => []
  | count + 1, upward => .either upward :: alternating count (!upward)

/-- The numbers of a list on one side of the power in the middle. -/
def onSide (bits : ℕ) (upward : Bool) (numbers : List ℕ) : List ℕ :=
  numbers.filter fun p => decide (2 ^ bits < p) = upward

/-- The first number of a list, if there is one. -/
def firstOf (bits : ℕ) (order : UInt64) : List ℕ → Except Fault ℕ
  | [] => .error (.primesExhausted bits order)
  | p :: _ => .ok p

/-- A draw reports what its search has found. -/
theorem draw_eq (w : PrimeWalk) (c : Draw) : w.draw c = w.report (c.search w) := by
  cases c <;> rfl

/-- A report keeps the walk that the search has left. -/
theorem report_snd {α : Type} (w : PrimeWalk) (r : Option α × PrimeWalk) :
    (w.report r).2 = r.2 := by
  obtain ⟨_ | _, _⟩ := r <;> rfl

/-- A report succeeds with what the search has found. -/
theorem toOption_report {α : Type} (w : PrimeWalk) (r : Option α × PrimeWalk) :
    (w.report r).1.toOption = r.1 := by
  obtain ⟨_ | _, _⟩ := r <;> rfl

/-! ### Single draws -/

section Single

variable {bits order : ℕ} {w : PrimeWalk} {r : Option UInt64 × PrimeWalk}

/-- What is left in a direction lies on its side. -/
theorem Sound.side (h : Sound bits order w) {upward : Bool} {p : ℕ} (hp : p ∈ w.left upward) :
    decide (2 ^ bits < p) = upward := by
  cases upward with
  | true =>
    have hge := (mem_primesIn.1 hp).1.1
    exact decide_eq_true (Nat.lt_of_lt_of_le h.lt_above hge)
  | false =>
    have hle := (mem_primesIn.1 (List.mem_reverse.1 hp)).1.2
    exact decide_eq_false (Nat.not_lt.2 (Nat.le_trans hle h.below_le))

/-- The prime that is taken is the first that was left. -/
theorem Took.head? {upward : Bool} (h : Took upward w r) :
    r.1.map UInt64.toNat = (w.left upward).head? := by
  rw [h.left_eq]
  cases hr : r.1 with
  | none =>
    have hleft := h.left_eq
    rw [h.of_none hr, hr] at hleft
    rw [← hleft]
    rfl
  | some p => rfl

/-- What was left in either direction is what was taken on its side, and what is left after that. -/
theorem Took.left (h : Took upward w r) (hs : Sound bits order w) (direction : Bool) :
    w.left direction =
      onSide bits direction (r.1.map UInt64.toNat).toList ++ r.2.left direction := by
  have hside : ∀ p ∈ (r.1.map UInt64.toNat).toList, decide (2 ^ bits < p) = upward :=
    fun p hp => hs.side (h.left_eq ▸ List.mem_append_left _ hp)
  by_cases heq : direction = upward
  · subst heq
    rw [onSide, List.filter_eq_self.2 fun p hp => decide_eq_true (hside p hp)]
    exact h.left_eq
  · have hother : direction = !upward := Bool.eq_not.2 heq
    have hnil : onSide bits direction (r.1.map UInt64.toNat).toList = [] :=
      List.filter_eq_nil_iff.2 fun p hp => by simpa [hside p hp] using Ne.symm heq
    rw [hnil, hother]
    exact h.other_eq.symm

/-- A draw has taken the first prime of its sources. -/
structure Drew (bits : ℕ) (w : PrimeWalk) (c : Draw) (r : Option UInt64 × PrimeWalk) : Prop where
  reaches : Reaches w r.2
  head? : r.1.map UInt64.toNat = (c.sources (w.left true) (w.left false)).head?
  left : ∀ direction, w.left direction =
    onSide bits direction (r.1.map UInt64.toNat).toList ++ r.2.left direction

/-- A search in both directions. -/
theorem nextEither_eq (upward : Bool) :
    nextEither upward = orElse (next upward) (next !upward) := by
  cases upward <;> rfl

/-- The sources of a search in both directions. -/
theorem sources_either (upward : Bool) :
    (Draw.either upward).sources (w.left true) (w.left false) =
      w.left upward ++ w.left (!upward) := by
  cases upward <;> rfl

/-- Every draw takes the first prime of its sources. -/
theorem drew_search (ha : Admissible bits order) (h : Sound bits order w) (c : Draw) :
    Drew bits w c (c.search w) := by
  have hone : ∀ upward, Drew bits w (if upward then .above else .below) (next upward w) := by
    intro upward
    have htook := took_next ha h upward
    refine ⟨htook.reaches, htook.head?.trans ?_, htook.left h⟩
    cases upward <;> rfl
  cases c with
  | above => exact hone true
  | below => exact hone false
  | either upward =>
    rw [Draw.search, nextEither_eq]
    have hfirst := took_next ha h upward
    rcases hnext : next upward w with ⟨_ | p, v⟩
    · -- the preferred direction is used up, and was left alone
      rw [hnext] at hfirst
      have hsound := h.reaches ha hfirst.reaches
      have hsecond := took_next ha hsound (!upward)
      have hkept : ∀ direction, w.left direction = v.left direction := hfirst.left h
      have hr : orElse (next upward) (next !upward) w = next (!upward) v := by rw [orElse, hnext]
      rw [hr]
      refine ⟨hfirst.reaches.trans hsecond.reaches, ?_, fun direction => ?_⟩
      · rw [sources_either, hfirst.of_none rfl, List.nil_append, hkept]
        exact hsecond.head?
      · rw [hkept]
        exact hsecond.left hsound direction
    · rw [hnext] at hfirst
      have hr : orElse (next upward) (next !upward) w = (some p, v) := by rw [orElse, hnext]
      rw [hr]
      refine ⟨hfirst.reaches, ?_, hfirst.left h⟩
      rw [sources_either, hfirst.left_eq]
      rfl

end Single

/-! ### Sequences -/

section Sequence

variable {bits : ℕ} {order : UInt64} {w : PrimeWalk}

/-- What is known of a sequence of draws: it goes by turns, and what was left in either direction is
what it has drawn on that side, and what is left after it. -/
structure Ran (bits : ℕ) (w : PrimeWalk) (calls : List Draw) : Prop where
  reaches : Reaches w (w.after calls)
  left : ∀ direction, w.left direction =
    onSide bits direction (w.drawn calls) ++ (w.after calls).left direction

/-- Sequences of draws. -/
theorem ran (ha : Admissible bits order.toNat) (calls : List Draw) :
    ∀ w : PrimeWalk, Sound bits order.toNat w → Ran bits w calls := by
  induction calls with
  | nil => exact fun w _ => ⟨.refl, fun _ => rfl⟩
  | cons c rest ih =>
    intro w h
    have hdrew := drew_search ha h c
    have hnext : (w.draw c).2 = (c.search w).2 := by rw [draw_eq, report_snd]
    have htaken : (w.draw c).1.toOption = (c.search w).1 := by rw [draw_eq, toOption_report]
    obtain ⟨hreaches, hleft⟩ := ih _ (h.reaches ha hdrew.reaches)
    have hafter : w.after (c :: rest) = (c.search w).2.after rest := congrArg (after · rest) hnext
    refine ⟨hafter ▸ hdrew.reaches.trans hreaches, fun direction => ?_⟩
    rw [hafter, drawn, htaken, hnext, onSide, List.filter_append, List.append_assoc,
      hdrew.left direction, hleft direction]
    rfl

/-- A draw answers with the first prime of its sources. -/
theorem draw_answer (ha : Admissible bits order.toNat) (h : Sound bits order.toNat w) (c : Draw) :
    (w.draw c).1.map UInt64.toNat =
      firstOf bits order (c.sources (w.left true) (w.left false)) := by
  have hhead := (drew_search ha h c).head?
  have horder : w.order = order := UInt64.toNat_inj.1 h.order_eq
  rw [draw_eq]
  rcases hsearch : c.search w with ⟨_ | p, v⟩
  · rw [hsearch] at hhead
    rw [List.head?_eq_none_iff.1 hhead.symm, report, h.bits_eq, horder]
    rfl
  · rw [hsearch] at hhead
    obtain ⟨rest, hrest⟩ := List.head?_eq_some_iff.1 hhead.symm
    rw [hrest]
    rfl

/-- A draw without sources is refused, and so it is ever after. -/
theorem draw_refused (ha : Admissible bits order.toNat) (h : Sound bits order.toNat w) {c : Draw}
    (hc : c.sources (w.left true) (w.left false) = []) (later : List Draw) :
    ((w.after later).draw c).1 = .error (.primesExhausted bits order) := by
  obtain ⟨hreaches, hleft⟩ := ran ha later w h
  have hnil : ∀ direction, w.left direction = [] → (w.after later).left direction = [] :=
    fun direction h0 => (List.append_eq_nil_iff.1 ((hleft direction).symm.trans h0)).2
  have hlater : c.sources ((w.after later).left true) ((w.after later).left false) = [] := by
    cases c with
    | above => exact hnil true hc
    | below => exact hnil false hc
    | either upward =>
      rw [sources_either] at hc ⊢
      obtain ⟨hfirst, hsecond⟩ := List.append_eq_nil_iff.1 hc
      rw [hnil _ hfirst, hnil _ hsecond]
      rfl
  have hanswer := draw_answer ha (h.reaches ha hreaches) c
  rw [hlater] at hanswer
  rcases hdraw : ((w.after later).draw c).1 with fault | p
  · rw [hdraw] at hanswer
    exact congrArg Except.error (Except.error.inj hanswer)
  · rw [hdraw] at hanswer
    cases hanswer

/-- The number of primes that are left. -/
def remaining (w : PrimeWalk) : ℕ := (w.left true).length + (w.left false).length

/-- A draw in both directions takes one prime of those that are left, unless none is. -/
theorem remaining_nextEither (ha : Admissible bits order.toNat) (h : Sound bits order.toNat w)
    (upward : Bool) :
    w.remaining = (nextEither upward w).1.toList.length + (nextEither upward w).2.remaining ∧
      ((nextEither upward w).1 = none → w.remaining = 0) := by
  have hdrew := drew_search ha h (.either upward)
  have hcount : ∀ ps : List ℕ,
      (onSide bits true ps).length + (onSide bits false ps).length = ps.length := by
    intro ps
    have hnot : (fun p => decide (decide (2 ^ bits < p) = false)) =
        fun p => !decide (decide (2 ^ bits < p) = true) := by
      funext p
      simp [← decide_not]
    rw [onSide, onSide, hnot]
    exact (List.length_eq_length_filter_add _).symm
  have htaken := hcount ((nextEither upward w).1.map UInt64.toNat).toList
  have hlength : ((nextEither upward w).1.map UInt64.toNat).toList.length =
      (nextEither upward w).1.toList.length := by
    cases (nextEither upward w).1 <;> rfl
  constructor
  · rw [remaining, hdrew.left true, hdrew.left false, List.length_append, List.length_append,
      remaining]
    simp only [Draw.search]
    omega
  · intro hnone
    have hhead := hdrew.head?
    rw [Draw.search, hnone, sources_either] at hhead
    have hnil := congrArg List.length (List.head?_eq_none_iff.1 hhead.symm)
    rw [List.length_append] at hnil
    cases upward
    · exact (Nat.add_comm _ _).trans hnil
    · exact hnil

/-- What drawing many primes gives, and where it leaves the walk. -/
structure DrewMany (count : ℕ) (upward : Bool) (w : PrimeWalk)
    (r : Option (List UInt64) × PrimeWalk) : Prop where
  of_le : count ≤ w.remaining →
    r.1.map (List.map UInt64.toNat) = some (w.drawn (alternating count upward))
  of_lt : w.remaining < count → r.1 = none ∧ r.2.remaining = 0
  exists_after : ∃ n ≤ count, r.2 = w.after (alternating n upward)

/-- Drawing many primes is drawing one after the other, until none is left. -/
theorem drewMany_nextMany (ha : Admissible bits order.toNat) (count : ℕ) :
    ∀ (upward : Bool) (w : PrimeWalk), Sound bits order.toNat w →
      DrewMany count upward w (nextMany count upward w) := by
  induction count with
  | zero =>
    exact fun upward w _ => ⟨fun _ => rfl, fun hlt => absurd hlt (Nat.not_lt_zero _), 0,
      Nat.le_refl 0, rfl⟩
  | succ count ih =>
    intro upward w h
    have hdrew := drew_search ha h (.either upward)
    obtain ⟨hremaining, hzero⟩ := remaining_nextEither ha h upward
    have hdraw : w.draw (.either upward) = w.report (nextEither upward w) := draw_eq w _
    rcases hnext : nextEither upward w with ⟨_ | p, v⟩
    · have hr : nextMany (count + 1) upward w = (none, v) := by simp only [nextMany, hnext]
      rw [hnext] at hremaining hzero hdraw
      rw [hr]
      have hempty : w.remaining = 0 := hzero rfl
      have hkept : w.remaining = 0 + v.remaining := hremaining
      refine ⟨fun hle => by omega, fun _ => ⟨rfl, by omega⟩, 1, Nat.succ_pos _, ?_⟩
      rw [alternating, after, List.foldl_cons, hdraw, report_snd]
      rfl
    · rw [hnext] at hremaining hdraw
      have hone : w.remaining = 1 + v.remaining := hremaining
      have hreaches : Reaches w v := by
        have hreaches := hdrew.reaches
        rwa [Draw.search, hnext] at hreaches
      have hafter : ∀ n, v.after (alternating n (!upward)) =
          w.after (alternating (n + 1) upward) := by
        intro n
        rw [alternating, after, after, List.foldl_cons, hdraw, report_snd]
      have hdrawn : w.drawn (alternating (count + 1) upward) =
          p.toNat :: v.drawn (alternating count (!upward)) := by
        rw [alternating, drawn, hdraw, toOption_report, report_snd]
        rfl
      have hrest := ih (!upward) v (h.reaches ha hreaches)
      obtain ⟨n, hn, hend⟩ := hrest.exists_after
      have hend := hend.trans (hafter n)
      rcases hmany : nextMany count (!upward) v with ⟨_ | ps, u⟩
      · have hr : nextMany (count + 1) upward w = (none, u) := by simp only [nextMany, hnext, hmany]
        rw [hmany] at hrest hend
        rw [hr]
        refine ⟨fun hle => ?_, fun hlt => ⟨rfl, (hrest.of_lt (by omega)).2⟩, n + 1,
          Nat.succ_le_succ hn, hend⟩
        cases hrest.of_le (by omega)
      · have hr : nextMany (count + 1) upward w = (some (p :: ps), u) := by
          simp only [nextMany, hnext, hmany]
        rw [hmany] at hrest hend
        rw [hr]
        refine ⟨fun hle => ?_, fun hlt => ?_, n + 1, Nat.succ_le_succ hn, hend⟩
        · rw [hdrawn, ← Option.some.inj (hrest.of_le (by omega))]
          rfl
        · cases (hrest.of_lt (by omega)).1

end Sequence

/-! ### Walks from their start -/

/-- No turn wraps a counter around or takes it below zero, the intervals end at the words that they
should end at, and candidates are below the bound of the moduli. -/
structure Counts (w : PrimeWalk) : Prop where
  toNat_highest : w.highest.toNat = 2 ^ w.bits + 2 ^ (w.bits - 1)
  toNat_lowest : w.lowest.toNat = 2 ^ (w.bits - 1)
  above_lt : w.above ≤ w.highest → w.above.toNat < 2 ^ 62
  toNat_above_add : w.above ≤ w.highest →
    (w.above + w.order).toNat = w.above.toNat + w.order.toNat
  below_lt : w.lowest ≤ w.below → w.below.toNat < 2 ^ 62
  order_le_below : w.lowest ≤ w.below → w.order ≤ w.below

/-- A sound walk counts without wrapping around. -/
theorem Sound.counts {bits order : ℕ} {w : PrimeWalk} (ha : Admissible bits order)
    (h : Sound bits order w) : w.Counts where
  toNat_highest := h.bits_eq ▸ h.toNat_highest ha
  toNat_lowest := h.bits_eq ▸ h.toNat_lowest ha
  above_lt hle := by
    have hle := h.toNat_highest ha ▸ UInt64.le_iff_toNat_le.1 hle
    have htwo := ha.two_pow_eq
    have hpow := ha.two_pow_le
    omega
  toNat_above_add hle := h.order_eq ▸ h.toNat_above_add ha hle
  below_lt _ := by
    have hle := h.below_le
    have htwo := ha.two_pow_eq
    have hpow := ha.two_pow_le
    omega
  order_le_below := h.order_le_below ha

section Start

variable {bits : ℕ} {order : UInt64} {first : PrimeWalk}

/-- The counters of a walk that is started. -/
theorem toNat_start (h : start bits order = .ok first) :
    first.above.toNat = 2 ^ bits + 1 ∧ first.below.toNat + order.toNat = 2 ^ bits + 1 := by
  obtain ⟨ha, rfl⟩ := start_eq_ok h
  have htwo := ha.two_pow_eq
  have hpow := ha.two_pow_le
  have hle := ha.order_le
  have habove : (powerOfTwo bits + 1).toNat = 2 ^ bits + 1 := by
    rw [UInt64.toNat_add, toNat_powerOfTwo ha.bits_le, UInt64.toNat_one,
      Nat.mod_eq_of_lt (by omega)]
  have horder : order ≤ powerOfTwo bits + 1 := by
    rw [UInt64.le_iff_toNat_le, habove]
    omega
  refine ⟨habove, ?_⟩
  show (powerOfTwo bits + 1 - order).toNat + order.toNat = 2 ^ bits + 1
  rw [UInt64.toNat_sub_of_le _ _ horder, habove]
  omega

/-- A walk that is started is sound. -/
theorem sound_start (h : start bits order = .ok first) : Sound bits order.toNat first := by
  obtain ⟨habove, hbelow⟩ := toNat_start h
  obtain ⟨ha, hfirst⟩ := start_eq_ok h
  have hpos := ha.order_pos
  have hhalf := Nat.two_pow_pos (bits - 1)
  have hmod := ha.two_pow_add_one_modEq
  exact {
    bits_eq := by rw [hfirst]
    order_eq := by rw [hfirst]
    above_modEq := habove ▸ hmod
    below_modEq := Nat.add_modEq_right.symm.trans (hbelow ▸ hmod)
    lt_above := by omega
    above_le := by omega
    below_le := by omega
    of_closed_above := fun hclosed => by rw [hfirst] at hclosed; cases hclosed
    of_closed_below := fun hclosed => by rw [hfirst] at hclosed; cases hclosed }

/-- At the start all primes of either interval are left. -/
theorem left_start (h : start bits order = .ok first) :
    first.left true = primesIn order.toNat (2 ^ bits + 1) (2 ^ bits + 2 ^ (bits - 1)) ∧
      first.left false = (primesIn order.toNat (2 ^ (bits - 1)) (2 ^ bits)).reverse := by
  have hs := sound_start h
  obtain ⟨habove, hbelow⟩ := toNat_start h
  obtain ⟨ha, -⟩ := start_eq_ok h
  have hmod := ha.two_pow_add_one_modEq
  constructor
  · rw [left, hs.order_eq, habove, hs.toNat_highest ha]
  · rw [left, hs.order_eq, hs.toNat_lowest ha]
    refine congrArg List.reverse (pairwise_primesIn.eq_of_mem_iff pairwise_primesIn fun p => ?_)
    -- no number above the first candidate is congruent to one, up to the power in the middle
    rw [mem_primesIn, mem_primesIn]
    constructor
    · rintro ⟨⟨hge, hle⟩, hrest⟩
      exact ⟨⟨hge, Nat.le_trans hle hs.below_le⟩, hrest⟩
    · rintro ⟨⟨hge, hle⟩, hprime, hp⟩
      have hstep := (hp.trans hmod.symm).add_le_of_lt (Nat.lt_succ_of_le hle)
      exact ⟨⟨hge, by omega⟩, hprime, hp⟩

/-- **The primes that a walk draws.** Take any sequence of draws from the start of a walk. The
primes that it has drawn above the power in the middle, and `up`, which are left there, are the
primes of the interval upwards in increasing order; those that it has drawn below, and `down`, are
the primes of the interval downwards in decreasing order. Then

* the next draw gives the first prime of its sources: in one direction those left there, in either
  those left in the preferred direction, followed by those left in the other;
* a draw without sources is refused, and so it is after any further draws;
* drawing many primes succeeds exactly when as many are left, with what single draws give, leaves
  the walk where single draws leave it, and after its failure every draw is refused;
* loops go by turns, and on the way no counter wraps around or falls below zero. -/
theorem draws_enumerate (h : start bits order = .ok first) (calls : List Draw) :
    let w := first.after calls
    let exhausted := Fault.primesExhausted bits order
    ∃ up down : List ℕ,
      primesIn order.toNat (2 ^ bits + 1) (2 ^ bits + 2 ^ (bits - 1)) =
        onSide bits true (first.drawn calls) ++ up ∧
      (primesIn order.toNat (2 ^ (bits - 1)) (2 ^ bits)).reverse =
        onSide bits false (first.drawn calls) ++ down ∧
      (∀ c, (w.draw c).1.map UInt64.toNat = firstOf bits order (c.sources up down)) ∧
      (∀ c : Draw, c.sources up down = [] →
        ∀ later, ((w.after later).draw c).1 = .error exhausted) ∧
      (∀ count,
        (w.drawMany count).1.map (List.map UInt64.toNat) =
          (if count ≤ up.length + down.length then .ok (w.drawn (alternating count true))
          else .error exhausted) ∧
        (∃ n ≤ count, (w.drawMany count).2 = w.after (alternating n true)) ∧
        (up.length + down.length < count → ∀ later c,
          (((w.drawMany count).2.after later).draw c).1 = .error exhausted)) ∧
      first.above.toNat = 2 ^ bits + 1 ∧ first.below.toNat + order.toNat = 2 ^ bits + 1 ∧
      ∀ v, Reaches first v → v.Counts ∧ ∀ c, Reaches v (v.draw c).2 := by
  intro w exhausted
  have hs := sound_start h
  obtain ⟨ha, -⟩ := start_eq_ok h
  obtain ⟨hup, hdown⟩ := left_start h
  obtain ⟨habove, hbelow⟩ := toNat_start h
  obtain ⟨hreaches, hleft⟩ := ran ha calls first hs
  have hw : Sound bits order.toNat w := hs.reaches ha hreaches
  refine ⟨w.left true, w.left false, hup ▸ hleft true, hdown ▸ hleft false, draw_answer ha hw,
    fun c hc => draw_refused ha hw hc, fun count => ?_, habove, hbelow, fun v hv => ?_⟩
  · have hmany := drewMany_nextMany ha count true w hw
    obtain ⟨n, hn, hend⟩ := hmany.exists_after
    have hsnd : (w.drawMany count).2 = (nextMany count true w).2 := report_snd w _
    have hend := hsnd.trans hend
    refine ⟨?_, ⟨n, hn, hend⟩, fun hlt later c => ?_⟩
    · rcases hr : nextMany count true w with ⟨_ | ps, v⟩
      · rw [hr] at hmany
        have hlt : ¬ count ≤ (w.left true).length + (w.left false).length :=
          fun hle => by cases hmany.of_le hle
        rw [if_neg hlt, drawMany, hr, report, hw.bits_eq, UInt64.toNat_inj.1 hw.order_eq]
        rfl
      · rw [hr] at hmany
        have hle : count ≤ (w.left true).length + (w.left false).length :=
          Nat.le_of_not_lt fun hlt => by cases (hmany.of_lt hlt).1
        rw [if_pos hle, drawMany, hr, ← Option.some.inj (hmany.of_le hle)]
        rfl
    · -- nothing is left to be drawn, in whichever way
      have hzero : (w.drawMany count).2.remaining = 0 := hsnd ▸ (hmany.of_lt hlt).2
      have hreaches : Reaches w (w.drawMany count).2 := hend ▸ (ran ha _ w hw).reaches
      obtain ⟨hup, hdown⟩ := Nat.add_eq_zero_iff.1 hzero
      refine draw_refused ha (hw.reaches ha hreaches) ?_ later
      rw [List.eq_nil_of_length_eq_zero hup, List.eq_nil_of_length_eq_zero hdown]
      rcases c with _ | _ | _ | _ <;> rfl
  · have hv := hs.reaches ha hv
    refine ⟨hv.counts ha, fun c => ?_⟩
    rw [draw_eq, report_snd]
    exact (drew_search ha hv c).reaches

/-- Around thirty-two, in steps of four, there are two primes on either side. After one downwards,
one in either direction and one upwards none is left above: a draw in either direction gives the
last one below, and two at once cannot be drawn. -/
theorem draws_enumerate_thirty_two :
    ∃ first, start 5 4 = .ok first ∧
      let w := first.after [.below, .either true, .above]
      first.drawn [.below, .either true, .above] = [29, 37, 41] ∧
        (w.draw (.either true)).1.map UInt64.toNat = .ok 17 ∧
        (∀ later, ((w.after later).draw .above).1 = .error (.primesExhausted 5 4)) ∧
        (w.drawMany 2).1.map (List.map UInt64.toNat) = .error (.primesExhausted 5 4) := by
  obtain ⟨first, h⟩ : ∃ first, start 5 4 = .ok first := ⟨_, rfl⟩
  have hdrawn : first.drawn [.below, .either true, .above] = [29, 37, 41] := by
    obtain rfl := Except.ok.inj h
    decide
  obtain ⟨up, down, hup, hdown, hnext, hrefused, hmany, -⟩ :=
    draws_enumerate h [.below, .either true, .above]
  rw [hdrawn] at hup hdown
  have habove : primesIn 4 33 48 = [37, 41] := by decide +kernel
  have hbelow : (primesIn 4 16 32).reverse = [29, 17] := by decide +kernel
  obtain rfl : up = [] := (List.append_right_inj [37, 41]).1 (hup.symm.trans habove)
  obtain rfl : down = [17] := (List.append_right_inj [29]).1 (hdown.symm.trans hbelow)
  obtain ⟨htwo, -, -⟩ := hmany 2
  exact ⟨first, h, hdrawn, hnext (.either true), hrefused .above rfl, htwo⟩

end Start

end PrimeWalk

end RnsEngine
