import Mathlib.Algebra.Order.BigOperators.Group.List
import Mathlib.Data.List.Sort
import Mathlib.Tactic.Ring

/-!
# Taking turns

Queues of any lengths take turns, an item each, and the ones that have run out are passed over.
-/

namespace Rdpio.Lib

def stepOf (n : ℕ) (turn : ℕ × ℕ) : ℕ := turn.2 * n + turn.1

def turnAt (lens : List ℕ) (p : ℕ) : Option (ℕ × ℕ) :=
  if p / lens.length < lens.getD (p % lens.length) 0 then some (p % lens.length, p / lens.length) else none

/-- The turns from step `p` on. -/
def turnsFrom (lens : List ℕ) (p : ℕ) : List (ℕ × ℕ) :=
  (List.range' p (lens.length * lens.sum - p)).filterMap (turnAt lens)

def turns (lens : List ℕ) : List (ℕ × ℕ) := turnsFrom lens 0

variable {lens : List ℕ}

theorem turnAt_eq_some {p : ℕ} {turn : ℕ × ℕ} :
    turnAt lens p = some turn ↔ turn.1 < lens.length ∧ turn.2 < lens.getD turn.1 0 ∧ p = stepOf lens.length turn := by
  unfold turnAt stepOf
  constructor
  · intro h
    split_ifs at h with hlt
    cases h
    refine ⟨?_, hlt, ?_⟩
    · rcases Nat.eq_zero_or_pos lens.length with hzero | hpos
      · rw [List.eq_nil_of_length_eq_zero hzero] at hlt
        simp at hlt
      · exact Nat.mod_lt _ hpos
    · dsimp only
      rw [Nat.mul_comm, Nat.div_add_mod]
  · rintro ⟨hqueue, hitem, rfl⟩
    have hmod : (turn.2 * lens.length + turn.1) % lens.length = turn.1 := by
      rw [Nat.mul_add_mod_self_right, Nat.mod_eq_of_lt hqueue]
    have hdiv : (turn.2 * lens.length + turn.1) / lens.length = turn.2 := by
      rw [Nat.mul_comm, Nat.mul_add_div (by omega), Nat.div_eq_of_lt hqueue, Nat.add_zero]
    rw [hmod, hdiv, if_pos hitem]

theorem getD_le_sum (lens : List ℕ) (j : ℕ) : lens.getD j 0 ≤ lens.sum := by
  rcases Nat.lt_or_ge j lens.length with hj | hj
  · rw [List.getD_eq_getElem?_getD, List.getElem?_eq_getElem hj, Option.getD_some]
    exact List.single_le_sum (fun _ _ => Nat.zero_le _) _ (List.getElem_mem hj)
  · rw [List.getD_eq_getElem?_getD, List.getElem?_eq_none hj]
    exact Nat.zero_le _

theorem stepOf_lt {turn : ℕ × ℕ} (hqueue : turn.1 < lens.length) (hitem : turn.2 < lens.getD turn.1 0) :
    stepOf lens.length turn < lens.length * lens.sum := by
  have hsum := getD_le_sum lens turn.1
  calc turn.2 * lens.length + turn.1 < turn.2 * lens.length + lens.length := by omega
    _ = lens.length * (turn.2 + 1) := by ring
    _ ≤ lens.length * lens.sum := Nat.mul_le_mul_left _ (by omega)

theorem turnAt_eq_none {p : ℕ} (h : lens.length * lens.sum ≤ p) : turnAt lens p = none := by
  by_contra hsome
  obtain ⟨turn, hturn⟩ := Option.ne_none_iff_exists'.1 hsome
  obtain ⟨hqueue, hitem, rfl⟩ := turnAt_eq_some.1 hturn
  exact absurd (stepOf_lt hqueue hitem) (Nat.not_lt.2 h)

theorem turnsFrom_succ (lens : List ℕ) (p : ℕ) :
    turnsFrom lens p = (turnAt lens p).toList ++ turnsFrom lens (p + 1) := by
  unfold turnsFrom
  rcases Nat.lt_or_ge p (lens.length * lens.sum) with hp | hp
  · obtain ⟨k, hk⟩ : ∃ k, lens.length * lens.sum - p = k + 1 := ⟨lens.length * lens.sum - p - 1, by omega⟩
    have hk' : lens.length * lens.sum - (p + 1) = k := by omega
    rw [hk, hk', List.range'_succ, List.filterMap_cons]
    cases turnAt lens p <;> rfl
  · have hzero : lens.length * lens.sum - p = 0 := by omega
    have hzero' : lens.length * lens.sum - (p + 1) = 0 := by omega
    rw [hzero, hzero', turnAt_eq_none hp]
    rfl

theorem mem_turnsFrom {p : ℕ} {turn : ℕ × ℕ} : turn ∈ turnsFrom lens p ↔
      turn.1 < lens.length ∧ turn.2 < lens.getD turn.1 0 ∧ p ≤ stepOf lens.length turn := by
  rw [turnsFrom, List.mem_filterMap]
  constructor
  · rintro ⟨q, hq, hturn⟩
    obtain ⟨hqueue, hitem, rfl⟩ := turnAt_eq_some.1 hturn
    exact ⟨hqueue, hitem, (List.mem_range'_1.1 hq).1⟩
  · rintro ⟨hqueue, hitem, hp⟩
    have hlast := stepOf_lt hqueue hitem
    exact ⟨_, List.mem_range'_1.2 ⟨hp, by omega⟩, turnAt_eq_some.2 ⟨hqueue, hitem, rfl⟩⟩

theorem mem_turns {turn : ℕ × ℕ} : turn ∈ turns lens ↔ turn.1 < lens.length ∧ turn.2 < lens.getD turn.1 0 := by
  rw [turns, mem_turnsFrom]
  exact ⟨fun h => ⟨h.1, h.2.1⟩, fun h => ⟨h.1, h.2, Nat.zero_le _⟩⟩

theorem pairwise_turnsFrom (lens : List ℕ) (p : ℕ) :
    (turnsFrom lens p).Pairwise fun a b => stepOf lens.length a < stepOf lens.length b := by
  rw [turnsFrom, List.pairwise_filterMap]
  refine List.Pairwise.imp (fun {p q} hpq a ha b hb => ?_) List.pairwise_lt_range'
  obtain ⟨-, -, hp⟩ := turnAt_eq_some.1 ha
  obtain ⟨-, -, hq⟩ := turnAt_eq_some.1 hb
  rwa [← hp, ← hq]

theorem pairwise_turns (lens : List ℕ) :
    (turns lens).Pairwise fun a b => stepOf lens.length a < stepOf lens.length b := pairwise_turnsFrom lens 0

theorem nodup_turns (lens : List ℕ) : (turns lens).Nodup :=
  (pairwise_turns lens).imp fun {a b} hab heq => by
    rw [heq] at hab
    exact Nat.lt_irrefl _ hab

theorem mem_between {pre mid post : List (ℕ × ℕ)} {a b turn : ℕ × ℕ}
    (h : turns lens = pre ++ a :: (mid ++ b :: post)) (hturn : turn ∈ turns lens)
    (ha : stepOf lens.length a < stepOf lens.length turn) (hb : stepOf lens.length turn < stepOf lens.length b) :
    turn ∈ mid := by
  have hsorted := pairwise_turns lens
  rw [h] at hturn hsorted
  simp only [List.pairwise_append, List.pairwise_cons] at hsorted
  obtain ⟨-, ⟨-, -, ⟨hpost, -⟩, -⟩, hpre⟩ := hsorted
  rw [List.mem_append, List.mem_cons, List.mem_append, List.mem_cons] at hturn
  obtain hturn | rfl | hturn | rfl | hturn := hturn
  · exact absurd (hpre turn hturn a List.mem_cons_self) (Nat.not_lt_of_lt ha)
  · exact absurd ha (Nat.lt_irrefl _)
  · exact hturn
  · exact absurd hb (Nat.lt_irrefl _)
  · exact absurd (hpost turn hturn) (Nat.not_lt_of_lt hb)

theorem length_between {pre mid post : List (ℕ × ℕ)} {a b : ℕ × ℕ}
    (h : turns lens = pre ++ a :: (mid ++ b :: post)) (hsame : b.1 = a.1) (hnone : ∀ turn ∈ mid, turn.1 ≠ a.1) {c : ℕ}
    (hother : c ≠ a.1) (hstill : ∃ turn ∈ mid ++ b :: post, turn.1 = c) :
    (mid.filter fun turn => turn.1 = c).length = 1 := by
  have hsorted := pairwise_turns lens
  have hmem : ∀ turn, turn ∈ a :: (mid ++ b :: post) → turn.1 < lens.length ∧ turn.2 < lens.getD turn.1 0 := fun turn ht =>
    mem_turns.1 (h ▸ List.mem_append_right pre ht)
  have hnodup := nodup_turns lens
  rw [h] at hsorted hnodup
  simp only [List.pairwise_append, List.pairwise_cons] at hsorted
  obtain ⟨-, ⟨hafter, -, -, hmidpost⟩, -⟩ := hsorted
  obtain ⟨haq, hai⟩ := hmem a List.mem_cons_self
  obtain ⟨hbq, hbi⟩ := hmem b (by simp)
  -- the second is the next item of the queue
  have hab := hafter b (by simp)
  have hnext : b.2 = a.2 + 1 := by
    by_contra hne
    have hlt : a.2 < b.2 := by
      unfold stepOf at hab
      rw [hsame] at hab
      exact Nat.lt_of_mul_lt_mul_right (Nat.lt_of_add_lt_add_right hab)
    have hmid : (a.1, a.2 + 1) ∈ mid := by
      refine mem_between h (mem_turns.2 ⟨haq, ?_⟩) ?_ ?_
      · rw [hsame] at hbi
        exact Nat.lt_of_le_of_lt (by omega : a.2 + 1 ≤ b.2) hbi
      · simp only [stepOf, Nat.add_mul]
        omega
      · have hle : (a.2 + 1 + 1) * lens.length ≤ b.2 * lens.length := Nat.mul_le_mul_right _ (by omega)
        simp only [stepOf, Nat.add_mul, hsame] at hle ⊢
        omega
    exact hnone _ hmid rfl
  have hstepb : stepOf lens.length b = stepOf lens.length a + lens.length := by
    rw [stepOf, stepOf, hnext, hsame]
    ring
  -- the other queue has a step between them
  obtain ⟨turn, hturn, rfl⟩ := hstill
  obtain ⟨htq, hti⟩ := hmem turn (List.mem_cons_of_mem _ hturn)
  have hat := hafter turn hturn
  obtain ⟨s, hs, hsa, hsb⟩ : ∃ s, s < lens.getD turn.1 0 ∧ stepOf lens.length a < stepOf lens.length (turn.1, s) ∧
      stepOf lens.length (turn.1, s) < stepOf lens.length b := by
    rcases Nat.lt_or_ge turn.1 a.1 with hlt | hge
    · have hround : a.2 + 1 ≤ turn.2 := by
        by_contra hle
        have : turn.2 * lens.length ≤ a.2 * lens.length := Nat.mul_le_mul_right _ (by omega)
        unfold stepOf at hat
        omega
      refine ⟨a.2 + 1, by omega, ?_, ?_⟩
      · simp only [stepOf, Nat.add_mul]
        omega
      · rw [hstepb]
        simp only [stepOf, Nat.add_mul]
        omega
    · have hround : a.2 ≤ turn.2 := by
        by_contra hle
        have : (turn.2 + 1) * lens.length ≤ a.2 * lens.length := Nat.mul_le_mul_right _ (by omega)
        simp only [stepOf, Nat.add_mul] at hat this
        omega
      refine ⟨a.2, by omega, ?_, ?_⟩
      · simp only [stepOf]
        omega
      · rw [hstepb]
        simp only [stepOf]
        omega
  have hone : (turn.1, s) ∈ mid := mem_between h (mem_turns.2 ⟨htq, hs⟩) hsa hsb
  -- and no other
  have hperm : (mid.filter fun t => t.1 = turn.1).Perm [(turn.1, s)] := by
    refine (List.perm_ext_iff_of_nodup ?_ (List.nodup_singleton _)).2 fun t => ?_
    · exact (hnodup.of_append_right.of_cons.of_append_left).filter _
    · rw [List.mem_filter, List.mem_singleton, decide_eq_true_eq]
      constructor
      · rintro ⟨ht, hq⟩
        have h1 := hafter t (List.mem_append_left _ ht)
        have h2 := hmidpost t ht b List.mem_cons_self
        rw [hstepb] at h2 hsb
        have hts : t.2 = s := by
          rcases Nat.lt_trichotomy t.2 s with hlt | heq | hgt
          · have : (t.2 + 1) * lens.length ≤ s * lens.length := Nat.mul_le_mul_right _ hlt
            simp only [stepOf, Nat.add_mul, hq] at *
            omega
          · exact heq
          · have : (s + 1) * lens.length ≤ t.2 * lens.length := Nat.mul_le_mul_right _ hgt
            simp only [stepOf, Nat.add_mul, hq] at *
            omega
        exact Prod.ext hq hts
      · rintro rfl
        exact ⟨hone, rfl⟩
  rw [hperm.length_eq, List.length_singleton]

theorem length_filter_mod_le {n : ℕ} (hn : 0 < n) (c first count : ℕ) :
    ((List.range' first count).filter fun p => p % n = c).length ≤ (count + n - 1) / n := by
  induction hcount : count using Nat.strong_induction_on generalizing first count with
  | _ k ih =>
    subst hcount
    -- within one round a residue comes up once at most
    have hround : ∀ m ≤ n, ((List.range' first m).filter fun p => p % n = c).length ≤ 1 := by
      intro m hm
      by_contra hmany
      have hpair := List.Pairwise.filter (fun p => decide (p % n = c))
        (List.pairwise_lt_range' : (List.range' first m).Pairwise (· < ·))
      obtain ⟨p, q, rest, hl⟩ : ∃ p q rest, ((List.range' first m).filter fun p => p % n = c) = p :: q :: rest := by
        rcases hl : (List.range' first m).filter fun p => p % n = c with - | ⟨p, - | ⟨q, rest⟩⟩
        · simp [hl] at hmany
        · simp [hl] at hmany
        · exact ⟨p, q, rest, rfl⟩
      have hp : p ∈ (List.range' first m).filter fun p => p % n = c := by simp [hl]
      have hq : q ∈ (List.range' first m).filter fun p => p % n = c := by simp [hl]
      rw [hl] at hpair
      have hlt : p < q := List.rel_of_pairwise_cons hpair List.mem_cons_self
      simp only [List.mem_filter, List.mem_range'_1, decide_eq_true_eq] at hp hq
      obtain ⟨⟨hp1, hp2⟩, hpc⟩ := hp
      obtain ⟨⟨hq1, hq2⟩, hqc⟩ := hq
      have hdvd : n ∣ q - p := Nat.dvd_of_mod_eq_zero (Nat.sub_mod_eq_zero_of_mod_eq (hqc.trans hpc.symm))
      have hle := Nat.le_of_dvd (by omega) hdvd
      omega
    rcases Nat.le_total count n with hle | hge
    · rcases Nat.eq_zero_or_pos count with rfl | hpos
      · simp
      · refine (hround count hle).trans ?_
        rw [Nat.le_div_iff_mul_le hn]
        omega
    · have hsplit : List.range' first count = List.range' first n ++ List.range' (first + n) (count - n) := by
        rw [List.range'_append_1, Nat.add_sub_cancel' hge]
      have hrest := ih (count - n) (by omega) (first + n) (count - n) rfl
      have hadd : (count + n - 1) / n = (count - n + n - 1) / n + 1 := by
        rw [← Nat.add_div_right _ hn]
        congr 1
        omega
      rw [hsplit, List.filter_append, List.length_append, hadd]
      have := hround n le_rfl
      omega

theorem length_filter_stretch_le {pre stretch post : List (ℕ × ℕ)} {last : ℕ × ℕ}
    (h : turns lens = pre ++ (stretch ++ last :: post))
    (hall : ∀ c < lens.length, ∃ turn ∈ last :: post, turn.1 = c) (c : ℕ) :
    ((stretch ++ [last]).filter fun turn => turn.1 = c).length ≤
      ((stretch ++ [last]).length + lens.length - 1) / lens.length := by
  have hsorted := pairwise_turns lens
  have hmem : ∀ turn, turn ∈ stretch ++ last :: post → turn.1 < lens.length ∧ turn.2 < lens.getD turn.1 0 :=
    fun turn ht => mem_turns.1 (h ▸ List.mem_append_right pre ht)
  have hpos : 0 < lens.length := Nat.zero_lt_of_lt (hmem last (by simp)).1
  -- the stretch goes by steps in a row
  have hlist : turns lens = (pre ++ (stretch ++ [last])) ++ post := by simp [h]
  obtain ⟨first, hfirst⟩ : ∃ first, (stretch ++ [last]).head? = some first := by
    rcases stretch with - | ⟨a, stretch⟩
    · exact ⟨last, rfl⟩
    · exact ⟨a, rfl⟩
  obtain ⟨rest, hrest⟩ : ∃ rest, stretch ++ [last] = first :: rest := by
    rcases hl : stretch ++ [last] with - | ⟨a, rest⟩
    · simp at hl
    · rw [hl] at hfirst
      cases hfirst
      exact ⟨rest, rfl⟩
  have hin : (stretch ++ [last]).Pairwise fun a b => stepOf lens.length a < stepOf lens.length b := by
    rw [hlist] at hsorted
    exact (List.pairwise_append.1 (List.pairwise_append.1 hsorted).1).2.1
  have hsteps : (stretch ++ [last]).map (stepOf lens.length) =
      List.range' (stepOf lens.length first) (stepOf lens.length last + 1 - stepOf lens.length first) := by
    refine List.Pairwise.eq_of_mem_iff (List.pairwise_map.2 hin) List.pairwise_lt_range' fun p => ?_
    rw [List.mem_map, List.mem_range'_1]
    constructor
    · rintro ⟨turn, hturn, rfl⟩
      have hlow : stepOf lens.length first ≤ stepOf lens.length turn := by
        rw [hrest] at hturn hin
        obtain rfl | hturn := List.mem_cons.1 hturn
        · exact le_rfl
        · exact (List.rel_of_pairwise_cons hin hturn).le
      have hhigh : stepOf lens.length turn ≤ stepOf lens.length last := by
        rw [List.mem_append, List.mem_singleton] at hturn
        obtain hturn | rfl := hturn
        · exact ((List.pairwise_append.1 hin).2.2 turn hturn last (List.mem_singleton_self _)).le
        · exact le_rfl
      omega
    · rintro ⟨hlow, hhigh⟩
      -- the queue of the step has an item left, so it has the one of the step
      obtain ⟨turn, hturn, hq⟩ := hall (p % lens.length) (Nat.mod_lt _ hpos)
      obtain ⟨-, hti⟩ := hmem turn (List.mem_append_right _ hturn)
      have hlater : stepOf lens.length last ≤ stepOf lens.length turn := by
        obtain rfl | hturn := List.mem_cons.1 hturn
        · exact le_rfl
        · rw [hlist, List.pairwise_append] at hsorted
          exact (hsorted.2.2 last (by simp) turn hturn).le
      have hp := Nat.div_add_mod p lens.length
      have hitem : p / lens.length < lens.getD (p % lens.length) 0 := by
        rw [hq] at hti
        refine Nat.lt_of_le_of_lt ?_ hti
        have hstep : stepOf lens.length last ≤ turn.2 * lens.length + p % lens.length := by
          rw [← hq]
          exact hlater
        rw [Nat.div_le_iff_le_mul_add_pred hpos]
        have := Nat.mod_lt p hpos
        rw [Nat.mul_comm]
        omega
      have hthis : (p % lens.length, p / lens.length) ∈ turns lens := mem_turns.2 ⟨Nat.mod_lt _ hpos, hitem⟩
      have hstep : stepOf lens.length (p % lens.length, p / lens.length) = p := by
        rw [stepOf, Nat.mul_comm]
        exact hp
      refine ⟨_, ?_, hstep⟩
      rw [hlist, List.mem_append, List.mem_append] at hthis
      rw [hlist, List.pairwise_append, List.pairwise_append] at hsorted
      obtain ⟨⟨-, -, hbefore⟩, -, hbehind⟩ := hsorted
      obtain (hthis | hthis) | hthis := hthis
      · have hlt := hbefore _ hthis first (by rw [hrest]; exact List.mem_cons_self)
        rw [hstep] at hlt
        omega
      · exact hthis
      · have hlt := hbehind last (by simp) _ hthis
        rw [hstep] at hlt
        omega
  have hcount : ((stretch ++ [last]).filter fun turn => turn.1 = c).length =
      (((stretch ++ [last]).map (stepOf lens.length)).filter fun p => p % lens.length = c).length := by
    rw [List.filter_map, List.length_map]
    congr 1
    refine List.filter_congr fun turn hturn => ?_
    obtain ⟨hq, -⟩ := hmem turn (by
      rw [List.mem_append, List.mem_singleton] at hturn
      obtain hturn | rfl := hturn
      · exact List.mem_append_left _ hturn
      · simp)
    rw [Function.comp_apply, stepOf, Nat.mul_add_mod_self_right, Nat.mod_eq_of_lt hq]
  rw [hcount, hsteps]
  refine (length_filter_mod_le hpos c _ _).trans ?_
  have hlength := congrArg List.length hsteps
  rw [List.length_map, List.length_range'] at hlength
  rw [hlength]

end Rdpio.Lib
