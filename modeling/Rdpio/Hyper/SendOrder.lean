import Rdpio.Lib.Turns

/-!
# The order in which a frame's bodies are sent

`send_order` of `crates/rdp-hyper/src/video.rs`: a body of each block in turn.
-/

namespace Rdpio.Hyper.Video

open Lib

structure SendOrder where
  runs : List (ℕ × ℕ)
  plain : ℕ × ℕ
  turn : ℕ
deriving DecidableEq

/-- The last run now ends at `fin`. -/
def extendLast (runs : List (ℕ × ℕ)) (fin : ℕ) : List (ℕ × ℕ) :=
  runs.dropLast ++ (runs.getLast?.map fun r => (r.1, fin)).toList

def runsFrom (i : ℕ) (prev : Option UInt8) (runs : List (ℕ × ℕ)) : List UInt8 → List (ℕ × ℕ)
  | [] => runs
  | b :: blocks =>
    runsFrom (i + 1) (some b) (extendLast (if prev ≠ some b then runs ++ [(i, i)] else runs) (i + 1)) blocks

def orderOf (blocks : List UInt8) (interleave : Bool) : SendOrder where
  runs := if interleave ∧ blocks.head? ≠ blocks.getLast? then runsFrom 0 none [] blocks else []
  plain := (0, blocks.length)
  turn := 0

/-- The block of a body is its byte 4. -/
def sendOrder (bodies : List (List UInt8)) (interleave : Bool) : SendOrder :=
  orderOf (bodies.map fun body => body.getD 4 0) interleave

namespace SendOrder

def seek : ℕ → SendOrder → Option ℕ × SendOrder
  | 0, s => (none, s)
  | moves + 1, s =>
    let r := s.runs.getD s.turn (0, 0)
    let turn := (s.turn + 1) % s.runs.length
    if r.1 < r.2 then (some r.1, { s with runs := s.runs.set s.turn (r.1 + 1, r.2), turn })
    else seek moves { s with turn }

def next (s : SendOrder) : Option ℕ × SendOrder :=
  if s.runs = [] then
    if s.plain.1 < s.plain.2 then (some s.plain.1, { s with plain := (s.plain.1 + 1, s.plain.2) }) else (none, s)
  else seek s.runs.length s

def collect : ℕ → SendOrder → List ℕ
  | 0, _ => []
  | n + 1, s =>
    match s.next with
    | (some i, s) => i :: collect n s
    | (none, _) => []

end SendOrder

/-- The blocks of a frame with their numbers of bodies. -/
structure Layout where
  blocks : List (UInt8 × ℕ)
  nodup : (blocks.map Prod.fst).Nodup
  pos : ∀ b ∈ blocks, 0 < b.2

def bodiesOf (blocks : List (UInt8 × ℕ)) : List UInt8 := blocks.flatMap fun b => List.replicate b.2 b.1

def indexOf (blocks : List (UInt8 × ℕ)) (turn : ℕ × ℕ) : ℕ := ((blocks.take turn.1).map Prod.snd).sum + turn.2

/-- Where the blocks begin and end. -/
def cutFrom (i : ℕ) : List (UInt8 × ℕ) → List (ℕ × ℕ)
  | [] => []
  | b :: blocks => (i, i + b.2) :: cutFrom (i + b.2) blocks

theorem extendLast_append (runs : List (ℕ × ℕ)) (r : ℕ × ℕ) (fin : ℕ) :
    extendLast (runs ++ [r]) fin = runs ++ [(r.1, fin)] := by
  simp [extendLast]

theorem runsFrom_replicate (b : UInt8) (rest : List UInt8) (k a i : ℕ) (runs : List (ℕ × ℕ)) :
    runsFrom i (some b) (runs ++ [(a, i)]) (List.replicate k b ++ rest) =
      runsFrom (i + k) (some b) (runs ++ [(a, i + k)]) rest := by
  induction k generalizing i with
  | zero => rfl
  | succ k ih =>
    rw [List.replicate_succ, List.cons_append, runsFrom, if_neg (fun h => h rfl), extendLast_append, ih,
      Nat.add_assoc, Nat.add_comm 1]

theorem runsFrom_bodiesOf {blocks : List (UInt8 × ℕ)} (hnodup : (blocks.map Prod.fst).Nodup)
    (hpos : ∀ b ∈ blocks, 0 < b.2) {i : ℕ} {prev : Option UInt8} (hprev : ∀ b ∈ blocks, prev ≠ some b.1)
    (runs : List (ℕ × ℕ)) : runsFrom i prev runs (bodiesOf blocks) = runs ++ cutFrom i blocks := by
  induction blocks generalizing i prev runs with
  | nil => exact (List.append_nil runs).symm
  | cons b blocks ih =>
    obtain ⟨k, hk⟩ : ∃ k, b.2 = k + 1 := ⟨b.2 - 1, by have := hpos b List.mem_cons_self; omega⟩
    rw [List.map_cons, List.nodup_cons] at hnodup
    have hother : ∀ c ∈ blocks, some b.1 ≠ some c.1 := fun c hc heq =>
      hnodup.1 (Option.some.inj heq ▸ List.mem_map_of_mem hc)
    have hend : i + 1 + k = i + b.2 := by omega
    rw [bodiesOf, List.flatMap_cons, hk, List.replicate_succ, List.cons_append, runsFrom,
      if_pos (hprev b List.mem_cons_self), extendLast_append, runsFrom_replicate, hend]
    exact (ih hnodup.2 (fun c hc => hpos c (List.mem_cons_of_mem _ hc)) hother _).trans (by simp [cutFrom])

theorem cutFrom_eq (i : ℕ) (blocks : List (UInt8 × ℕ)) : cutFrom i blocks = (List.range blocks.length).map fun j =>
      (i + indexOf blocks (j, 0), i + indexOf blocks (j, (blocks.map Prod.snd).getD j 0)) := by
  induction blocks generalizing i with
  | nil => rfl
  | cons b blocks ih =>
    rw [cutFrom, ih, List.length_cons, List.range_succ_eq_map, List.map_cons, List.map_map]
    simp [indexOf, Nat.add_assoc, Function.comp_def]

variable {blocks : List (UInt8 × ℕ)}

theorem getElem?_bodiesOf {turn : ℕ × ℕ} (hqueue : turn.1 < blocks.length)
    (hitem : turn.2 < (blocks.map Prod.snd).getD turn.1 0) :
    (bodiesOf blocks)[indexOf blocks turn]? = blocks[turn.1]?.map Prod.fst := by
  obtain ⟨j, t⟩ := turn
  induction blocks generalizing j with
  | nil => simp at hqueue
  | cons b blocks ih =>
    rw [bodiesOf, List.flatMap_cons]
    cases j with
    | zero =>
      have ht : t < b.2 := by simpa using hitem
      have hindex : indexOf (b :: blocks) (0, t) = t := by simp [indexOf]
      rw [hindex, List.getElem?_append_left (by rw [List.length_replicate]; exact ht), List.getElem?_replicate,
        if_pos ht]
      rfl
    | succ j =>
      have hindex : indexOf (b :: blocks) (j + 1, t) = b.2 + indexOf blocks (j, t) := by
        simp [indexOf, Nat.add_assoc]
      rw [hindex, List.getElem?_append_right (by rw [List.length_replicate]; omega), List.length_replicate,
        Nat.add_sub_cancel_left]
      exact ih j (by simpa using hqueue) (by simpa using hitem)

theorem length_bodiesOf (blocks : List (UInt8 × ℕ)) : (bodiesOf blocks).length = (blocks.map Prod.snd).sum := by
  induction blocks with
  | nil => rfl
  | cons b blocks ih =>
    rw [bodiesOf, List.flatMap_cons, List.length_append, List.length_replicate, List.map_cons, List.sum_cons, ← ih]
    rfl

theorem exists_turn {x : ℕ} (hx : x < (bodiesOf blocks).length) :
    ∃ turn : ℕ × ℕ, turn.1 < blocks.length ∧ turn.2 < (blocks.map Prod.snd).getD turn.1 0 ∧ indexOf blocks turn = x := by
  rw [length_bodiesOf] at hx
  induction blocks generalizing x with
  | nil => simp at hx
  | cons b blocks ih =>
    rcases Nat.lt_or_ge x b.2 with hlt | hge
    · exact ⟨(0, x), by simp, by simpa using hlt, by simp [indexOf]⟩
    · rw [List.map_cons, List.sum_cons] at hx
      obtain ⟨⟨j, t⟩, hj, ht, hindex⟩ := @ih (x - b.2) (by omega)
      refine ⟨(j + 1, t), by simpa using hj, by simpa using ht, ?_⟩
      have hindex' : indexOf (b :: blocks) (j + 1, t) = b.2 + indexOf blocks (j, t) := by
        simp [indexOf, Nat.add_assoc]
      rw [hindex', hindex]
      omega

/-! ## The cursor -/

def turnsBefore (n p j : ℕ) : ℕ := p / n + if j < p % n then 1 else 0

theorem turnsBefore_self {n p : ℕ} : turnsBefore n p (p % n) = p / n := by
  rw [turnsBefore, if_neg (Nat.lt_irrefl _), Nat.add_zero]

theorem turnsBefore_succ {n j : ℕ} (hj : j < n) (p : ℕ) :
    turnsBefore n (p + 1) j = turnsBefore n p j + if j = p % n then 1 else 0 := by
  have hpos : 0 < n := Nat.zero_lt_of_lt hj
  have hmod := Nat.mod_lt p hpos
  have hp := Nat.div_add_mod p n
  unfold turnsBefore
  rcases Nat.lt_or_ge (p % n + 1) n with hin | hend
  · have hdiv' : (p + 1) / n = p / n := by
      rw [← hp, Nat.add_assoc, Nat.mul_add_div hpos, Nat.mul_add_div hpos, Nat.div_eq_of_lt hin, Nat.div_eq_of_lt hmod]
    have hmod' : (p + 1) % n = p % n + 1 := by
      rw [← hp, Nat.add_assoc, Nat.mul_add_mod, Nat.mod_eq_of_lt hin, Nat.mul_add_mod, Nat.mod_mod]
    rw [hdiv', hmod']
    split_ifs <;> omega
  · have hround : p + 1 = n * (p / n + 1) := by
      rw [Nat.mul_succ]
      omega
    have hdiv' : (p + 1) / n = p / n + 1 := by rw [hround, Nat.mul_div_cancel_left _ hpos]
    have hmod' : (p + 1) % n = 0 := by rw [hround, Nat.mul_mod_right]
    rw [hdiv', hmod']
    split_ifs <;> omega

variable (blocks) in
/-- The run of a block after `p` moves of the cursor. -/
def runAt (p j : ℕ) : ℕ × ℕ :=
  (indexOf blocks (j, min ((blocks.map Prod.snd).getD j 0) (turnsBefore blocks.length p j)),
    indexOf blocks (j, (blocks.map Prod.snd).getD j 0))

variable (blocks) in
/-- The iterator after `p` moves of the cursor. -/
def stateAt (p : ℕ) : SendOrder where
  runs := (List.range blocks.length).map (runAt blocks p)
  plain := (0, (bodiesOf blocks).length)
  turn := p % blocks.length

theorem runAt_lt_iff (p j : ℕ) :
    (runAt blocks p j).1 < (runAt blocks p j).2 ↔ turnsBefore blocks.length p j < (blocks.map Prod.snd).getD j 0 := by
  simp only [runAt, indexOf]
  omega

theorem runAt_succ {j : ℕ} (hj : j < blocks.length) (p : ℕ) : runAt blocks (p + 1) j =
      if j = p % blocks.length ∧ (runAt blocks p j).1 < (runAt blocks p j).2 then
        ((runAt blocks p j).1 + 1, (runAt blocks p j).2)
      else runAt blocks p j := by
  simp only [runAt_lt_iff]
  unfold runAt
  rw [turnsBefore_succ hj]
  simp only [indexOf]
  split_ifs with hturn hboth hboth
  · exact Prod.ext (by dsimp only; omega) rfl
  · have hdone : ¬ turnsBefore blocks.length p j < (blocks.map Prod.snd).getD j 0 := fun h => hboth ⟨hturn, h⟩
    exact Prod.ext (by dsimp only; omega) rfl
  · exact absurd hboth.1 hturn
  · rfl

theorem seek_stateAt (hpos : 0 < blocks.length) (moves p : ℕ) : SendOrder.seek (moves + 1) (stateAt blocks p) =
      match turnAt (blocks.map Prod.snd) p with
      | some turn => (some (indexOf blocks turn), stateAt blocks (p + 1))
      | none => SendOrder.seek moves (stateAt blocks (p + 1)) := by
  have hat : p % blocks.length < blocks.length := Nat.mod_lt _ hpos
  have hrun : (stateAt blocks p).runs.getD (stateAt blocks p).turn (0, 0) = runAt blocks p (p % blocks.length) := by
    simp only [stateAt, List.getD_eq_getElem?_getD, List.getElem?_map, List.getElem?_range hat, Option.map_some,
      Option.getD_some]
  have hturn : ((stateAt blocks p).turn + 1) % (stateAt blocks p).runs.length = (p + 1) % blocks.length := by
    simp [stateAt]
  have hself := @turnsBefore_self blocks.length p
  rw [SendOrder.seek, hrun, hturn]
  by_cases hleft : turnsBefore blocks.length p (p % blocks.length) < (blocks.map Prod.snd).getD (p % blocks.length) 0
  · have hsome : turnAt (blocks.map Prod.snd) p = some (p % blocks.length, p / blocks.length) := by
      rw [hself] at hleft
      rw [turnAt, List.length_map, if_pos hleft]
    have hfirst : (runAt blocks p (p % blocks.length)).1 = indexOf blocks (p % blocks.length, p / blocks.length) := by
      rw [runAt, hself, min_eq_right (by rw [← hself]; exact hleft.le)]
    have hruns : (stateAt blocks p).runs.set (stateAt blocks p).turn
        ((runAt blocks p (p % blocks.length)).1 + 1, (runAt blocks p (p % blocks.length)).2) =
        (stateAt blocks (p + 1)).runs := by
      refine List.ext_getElem (by simp [stateAt]) fun j hj hj' => ?_
      have hjn : j < blocks.length := by simpa [stateAt] using hj'
      simp only [stateAt, List.getElem_set, List.getElem_map, List.getElem_range]
      rw [runAt_succ hjn]
      by_cases heq : j = p % blocks.length
      · subst heq
        rw [if_pos rfl, if_pos ⟨rfl, (runAt_lt_iff _ _).2 hleft⟩]
      · rw [if_neg (Ne.symm heq), if_neg (fun h => heq h.1)]
    rw [if_pos ((runAt_lt_iff _ _).2 hleft), hsome, hfirst]
    dsimp only
    rw [← hfirst]
    rw [hruns]
    rfl
  · have hnone : turnAt (blocks.map Prod.snd) p = none := by
      rw [hself] at hleft
      rw [turnAt, List.length_map, if_neg hleft]
    have hruns : (stateAt blocks p).runs = (stateAt blocks (p + 1)).runs := by
      refine List.ext_getElem (by simp [stateAt]) fun j hj _ => ?_
      have hjn : j < blocks.length := by simpa [stateAt] using hj
      simp only [stateAt, List.getElem_map, List.getElem_range]
      rw [runAt_succ hjn, if_neg]
      rintro ⟨rfl, hlt⟩
      exact hleft ((runAt_lt_iff _ _).1 hlt)
    rw [if_neg (fun h => hleft ((runAt_lt_iff _ _).1 h)), hnone]
    dsimp only
    rw [hruns]
    rfl

theorem seek_none (hpos : 0 < blocks.length) {p : ℕ} (h : turnsFrom (blocks.map Prod.snd) p = []) (moves : ℕ) :
    (SendOrder.seek moves (stateAt blocks p)).1 = none := by
  induction moves generalizing p with
  | zero => rfl
  | succ moves ih =>
    rw [turnsFrom_succ] at h
    obtain ⟨hnone, hrest⟩ := List.append_eq_nil_iff.1 h
    rw [seek_stateAt hpos, Option.toList_eq_nil_iff.1 hnone]
    exact ih hrest

theorem seek_some (hpos : 0 < blocks.length) {p : ℕ} {turn : ℕ × ℕ} {rest : List (ℕ × ℕ)}
    (h : turnsFrom (blocks.map Prod.snd) p = turn :: rest) {moves : ℕ}
    (hmoves : stepOf blocks.length turn < p + moves) :
    ∃ q, SendOrder.seek moves (stateAt blocks p) = (some (indexOf blocks turn), stateAt blocks q) ∧
      turnsFrom (blocks.map Prod.snd) q = rest := by
  have hle : p ≤ stepOf blocks.length turn := by
    have hmem : turn ∈ turnsFrom (blocks.map Prod.snd) p := h ▸ List.mem_cons_self
    simpa using (mem_turnsFrom.1 hmem).2.2
  induction moves generalizing p with
  | zero => omega
  | succ moves ih =>
    rw [turnsFrom_succ] at h
    rw [seek_stateAt hpos]
    cases hat : turnAt (blocks.map Prod.snd) p with
    | some found =>
      rw [hat] at h
      obtain ⟨rfl, hrest⟩ := List.cons_eq_cons.1 h
      exact ⟨p + 1, rfl, hrest⟩
    | none =>
      rw [hat] at h
      replace h : turnsFrom (blocks.map Prod.snd) (p + 1) = turn :: rest := h
      have hmem : turn ∈ turnsFrom (blocks.map Prod.snd) (p + 1) := h ▸ List.mem_cons_self
      exact ih h (by omega) (by simpa using (mem_turnsFrom.1 hmem).2.2)

theorem stepOf_lt_round {p : ℕ} {turn : ℕ × ℕ} {rest : List (ℕ × ℕ)}
    (h : turnsFrom (blocks.map Prod.snd) p = turn :: rest) : stepOf blocks.length turn < p + blocks.length := by
  have hmem : turn ∈ turnsFrom (blocks.map Prod.snd) p := h ▸ List.mem_cons_self
  have hsorted := pairwise_turnsFrom (blocks.map Prod.snd) p
  obtain ⟨hqueue, hitem, -⟩ := mem_turnsFrom.1 hmem
  by_contra hfar
  -- the block's turn before it would be left too, and come first
  have hback : stepOf blocks.length (turn.1, turn.2 - 1) + blocks.length = stepOf blocks.length turn := by
    rw [List.length_map] at hqueue
    obtain ⟨t, ht⟩ : ∃ t, turn.2 = t + 1 := by
      refine ⟨turn.2 - 1, (Nat.succ_pred_eq_of_ne_zero fun hzero => hfar ?_).symm⟩
      rw [stepOf, hzero, Nat.zero_mul]
      omega
    simp only [stepOf, ht, Nat.add_sub_cancel, Nat.succ_mul]
    omega
  have hearlier : (turn.1, turn.2 - 1) ∈ turnsFrom (blocks.map Prod.snd) p := by
    refine mem_turnsFrom.2 ⟨hqueue, Nat.lt_of_le_of_lt (Nat.sub_le _ _) hitem, ?_⟩
    rw [List.length_map]
    omega
  rw [h] at hearlier hsorted
  rw [List.length_map] at hsorted
  obtain heq | hin := List.mem_cons.1 hearlier
  · rw [heq] at hback
    rw [List.length_map] at hqueue
    omega
  · have := List.rel_of_pairwise_cons hsorted hin
    omega

theorem collect_stateAt (hpos : 0 < blocks.length) (n p : ℕ) :
    (stateAt blocks p).collect n = ((turnsFrom (blocks.map Prod.snd) p).map (indexOf blocks)).take n := by
  have hruns : ∀ p, (stateAt blocks p).runs ≠ [] := fun p h => by
    have := congrArg List.length h
    simp [stateAt] at this
    simp [this] at hpos
  have hlen : ∀ p, (stateAt blocks p).runs.length = blocks.length := fun p => by simp [stateAt]
  induction n generalizing p with
  | zero => rw [SendOrder.collect, List.take_zero]
  | succ n ih =>
    rw [SendOrder.collect, SendOrder.next, if_neg (hruns p), hlen]
    cases hleft : turnsFrom (blocks.map Prod.snd) p with
    | nil =>
      have hnone := seek_none hpos hleft blocks.length
      rcases hseek : SendOrder.seek blocks.length (stateAt blocks p) with ⟨found, s⟩
      rw [hseek] at hnone
      obtain rfl : found = none := hnone
      rfl
    | cons turn rest =>
      obtain ⟨q, hseek, hrest⟩ := seek_some hpos hleft (stepOf_lt_round hleft)
      rw [hseek]
      change _ :: SendOrder.collect n (stateAt blocks q) = _
      rw [ih, hrest, List.map_cons, List.take_succ_cons]

/-! ## Every body in its turn -/

namespace Layout

variable (l : Layout)

def bodies : List UInt8 := bodiesOf l.blocks

def order (interleave : Bool) : List ℕ := (orderOf l.bodies interleave).collect (l.bodies.length + 1)

def inTurns : List ℕ := (turns (l.blocks.map Prod.snd)).map (indexOf l.blocks)

theorem getElem?_bodies {turn : ℕ × ℕ} (hturn : turn ∈ turns (l.blocks.map Prod.snd)) :
    l.bodies[indexOf l.blocks turn]? = l.blocks[turn.1]?.map Prod.fst := by
  obtain ⟨hqueue, hitem⟩ := mem_turns.1 hturn
  rw [List.length_map] at hqueue
  exact getElem?_bodiesOf hqueue hitem

theorem queue_eq {a b : ℕ} (ha : a < l.blocks.length)
    (h : l.blocks[a]?.map Prod.fst = l.blocks[b]?.map Prod.fst) : a = b := by
  have hmap : ∀ j, l.blocks[j]?.map Prod.fst = (l.blocks.map Prod.fst)[j]? := fun j => (List.getElem?_map).symm
  rw [hmap, hmap] at h
  exact (List.getElem?_inj (by rw [List.length_map]; exact ha) l.nodup).1 h

theorem block_iff {a turn : ℕ × ℕ} (ha : a ∈ turns (l.blocks.map Prod.snd))
    (hturn : turn ∈ turns (l.blocks.map Prod.snd)) :
    l.bodies[indexOf l.blocks turn]? = l.bodies[indexOf l.blocks a]? ↔ turn.1 = a.1 := by
  rw [l.getElem?_bodies ha, l.getElem?_bodies hturn]
  have hqueue := (mem_turns.1 hturn).1
  rw [List.length_map] at hqueue
  exact ⟨fun h => l.queue_eq hqueue h, fun h => by rw [h]⟩

theorem indexOf_lt {a b : ℕ × ℕ} (hqueue : a.1 = b.1) (hitem : a.2 < b.2) :
    indexOf l.blocks a < indexOf l.blocks b := by
  rw [indexOf, indexOf, hqueue]
  omega

theorem indexOf_inj {a b : ℕ × ℕ} (ha : a ∈ turns (l.blocks.map Prod.snd)) (hb : b ∈ turns (l.blocks.map Prod.snd))
    (h : indexOf l.blocks a = indexOf l.blocks b) : a = b := by
  have hqueue : a.1 = b.1 := (l.block_iff hb ha).1 (by rw [h])
  refine Prod.ext hqueue ?_
  rw [indexOf, indexOf, hqueue] at h
  omega

theorem inTurns_perm : l.inTurns.Perm (List.range l.bodies.length) := by
  refine (List.perm_ext_iff_of_nodup ?_ List.nodup_range).2 fun x => ?_
  · exact (List.nodup_map_iff_inj_on (nodup_turns _)).2 fun a ha b hb h => l.indexOf_inj ha hb h
  · rw [inTurns, List.mem_map, List.mem_range]
    constructor
    · rintro ⟨turn, hturn, rfl⟩
      have hbody := l.getElem?_bodies hturn
      have hqueue := (mem_turns.1 hturn).1
      rw [List.length_map] at hqueue
      rw [List.getElem?_eq_getElem hqueue, Option.map_some] at hbody
      exact (List.getElem?_eq_some_iff.1 hbody).1
    · intro hx
      obtain ⟨turn, hqueue, hitem, hindex⟩ := exists_turn hx
      exact ⟨turn, mem_turns.2 ⟨by rw [List.length_map]; exact hqueue, hitem⟩, hindex⟩

theorem pairwise_filter_inTurns (b : Option UInt8) : (l.inTurns.filter fun x => l.bodies[x]? = b).Pairwise (· < ·) := by
  have hsorted := pairwise_turns (l.blocks.map Prod.snd)
  rw [inTurns, List.filter_map, List.pairwise_map]
  refine (hsorted.filter _).imp_of_mem fun {x y} hx hy hxy => ?_
  obtain ⟨hx, hxb⟩ := List.mem_filter.1 hx
  obtain ⟨hy, hyb⟩ := List.mem_filter.1 hy
  have hqueue : x.1 = y.1 := (l.block_iff hy hx).1 ((of_decide_eq_true hxb).trans (of_decide_eq_true hyb).symm)
  refine l.indexOf_lt hqueue ?_
  unfold stepOf at hxy
  rw [hqueue] at hxy
  exact Nat.lt_of_mul_lt_mul_right (Nat.lt_of_add_lt_add_right hxy)

theorem length_inTurns : l.inTurns.length = l.bodies.length := by
  rw [l.inTurns_perm.length_eq, List.length_range]

theorem inTurns_of_length_le (h : l.blocks.length ≤ 1) : l.inTurns = List.range l.bodies.length := by
  have hsame : ∀ x ∈ l.inTurns, decide (l.bodies[x]? = l.bodies[0]?) = true := by
    intro x hx
    have hpos : 0 < l.bodies.length := by
      have hlt := List.mem_range.1 (l.inTurns_perm.mem_iff.1 hx)
      omega
    obtain ⟨turn, hturn, rfl⟩ := List.mem_map.1 hx
    obtain ⟨first, hfirst, hzero⟩ := List.mem_map.1 (l.inTurns_perm.mem_iff.2 (List.mem_range.2 hpos))
    have hqueue := (mem_turns.1 hturn).1
    have hqueue' := (mem_turns.1 hfirst).1
    rw [List.length_map] at hqueue hqueue'
    rw [← hzero]
    exact decide_eq_true ((l.block_iff hfirst hturn).2 (by omega))
  have hsorted := l.pairwise_filter_inTurns l.bodies[0]?
  rw [List.filter_eq_self.2 hsame] at hsorted
  exact List.Pairwise.eq_of_mem_iff hsorted List.pairwise_lt_range fun x => l.inTurns_perm.mem_iff

end Layout

theorem collect_plain (turn first last m : ℕ) :
    (SendOrder.mk [] (first, last) turn).collect m = (List.range' first (last - first)).take m := by
  induction m generalizing first with
  | zero => rw [SendOrder.collect, List.take_zero]
  | succ m ih =>
    rw [SendOrder.collect, SendOrder.next, if_pos rfl]
    dsimp only
    by_cases hleft : first < last
    · obtain ⟨k, hk⟩ : ∃ k, last - first = k + 1 := ⟨last - first - 1, by omega⟩
      have hk' : last - (first + 1) = k := by omega
      rw [if_pos hleft, hk, List.range'_succ, List.take_succ_cons, ← hk', ← ih]
    · have hzero : last - first = 0 := by omega
      rw [if_neg hleft, hzero]
      rfl

theorem Layout.head?_eq_getLast?_iff (l : Layout) : l.bodies.head? = l.bodies.getLast? ↔ l.blocks.length ≤ 1 := by
  obtain ⟨blocks, hnodup, hpos⟩ := l
  simp only [Layout.bodies]
  rcases blocks with - | ⟨b, rest⟩
  · simp [bodiesOf]
  have hhead : (bodiesOf (b :: rest)).head? = some b.1 := by
    obtain ⟨k, hk⟩ : ∃ k, b.2 = k + 1 := ⟨b.2 - 1, by have := hpos b List.mem_cons_self; omega⟩
    rw [bodiesOf, List.flatMap_cons, hk, List.replicate_succ]
    rfl
  rcases List.eq_nil_or_concat' rest with rfl | ⟨init, c, rfl⟩
  · rw [hhead]
    simp only [bodiesOf, List.flatMap_cons, List.flatMap_nil, List.append_nil, List.length_singleton, le_refl, iff_true]
    rw [List.getLast?_replicate, if_neg (by have := hpos b List.mem_cons_self; omega)]
  · have hc : 0 < c.2 := hpos c (by simp)
    have hlast : (bodiesOf (b :: (init ++ [c]))).getLast? = some c.1 := by
      rw [← List.cons_append, bodiesOf, List.flatMap_append, List.flatMap_singleton,
        List.getLast?_append_of_ne_nil _ (by rw [Ne, List.replicate_eq_nil_iff]; omega), List.getLast?_replicate,
        if_neg (by omega)]
    rw [hhead, hlast]
    constructor
    · intro heq
      rw [List.map_cons, List.nodup_cons] at hnodup
      exact absurd (by rw [Option.some.inj heq]; simp) hnodup.1
    · intro hle
      simp at hle

namespace Layout

variable (l : Layout)

theorem order_true : l.order true = l.inTurns := by
  have hlen := l.length_inTurns
  unfold order
  by_cases hone : l.blocks.length ≤ 1
  · have horder : orderOf l.bodies true = ⟨[], (0, l.bodies.length), 0⟩ := by
      rw [orderOf, if_neg fun h => h.2 (l.head?_eq_getLast?_iff.2 hone)]
    rw [horder, collect_plain, l.inTurns_of_length_le hone, Nat.sub_zero, List.range_eq_range',
      List.take_of_length_le (by rw [List.length_range']; omega)]
  · have horder : orderOf l.bodies true = stateAt l.blocks 0 := by
      rw [orderOf, if_pos ⟨rfl, fun h => hone (l.head?_eq_getLast?_iff.1 h)⟩, bodies,
        runsFrom_bodiesOf l.nodup l.pos (fun b _ => by simp), List.nil_append, cutFrom_eq, stateAt]
      congr 1
      refine List.map_congr_left fun j _ => ?_
      simp [runAt, turnsBefore]
    rw [horder, collect_stateAt (by omega)]
    exact List.take_of_length_le (by rw [← hlen, inTurns, turns]; omega)

theorem order_false : l.order false = List.range l.bodies.length := by
  have horder : orderOf l.bodies false = ⟨[], (0, l.bodies.length), 0⟩ := by
    rw [orderOf, if_neg fun h => Bool.false_ne_true h.1]
  rw [order, horder, collect_plain, Nat.sub_zero, List.range_eq_range',
    List.take_of_length_le (by rw [List.length_range']; omega)]

theorem length_between {pre mid post : List ℕ} {x y : ℕ} (h : l.order true = pre ++ x :: (mid ++ y :: post))
    (hsame : l.bodies[y]? = l.bodies[x]?) (hnone : ∀ z ∈ mid, l.bodies[z]? ≠ l.bodies[x]?) {b : UInt8}
    (hother : some b ≠ l.bodies[x]?) (hstill : ∃ z ∈ mid ++ y :: post, l.bodies[z]? = some b) :
    (mid.filter fun z => l.bodies[z]? = some b).length = 1 := by
  rw [order_true, inTurns, List.map_eq_append_iff] at h
  obtain ⟨pre', fromX, hturns, -, hfromX⟩ := h
  obtain ⟨x', afterX, rfl, rfl, hafterX⟩ := List.map_eq_cons_iff.1 hfromX
  obtain ⟨mid', fromY, rfl, rfl, hfromY⟩ := List.map_eq_append_iff.1 hafterX
  obtain ⟨y', post', rfl, rfl, rfl⟩ := List.map_eq_cons_iff.1 hfromY
  have hmem : ∀ turn ∈ x' :: (mid' ++ y' :: post'), turn ∈ turns (l.blocks.map Prod.snd) := fun turn ht =>
    hturns ▸ List.mem_append_right pre' ht
  have hx := hmem x' List.mem_cons_self
  obtain ⟨z, hz, hzb⟩ := hstill
  have hzmap : z ∈ (mid' ++ y' :: post').map (indexOf l.blocks) := by
    rw [List.map_append, List.map_cons]
    exact hz
  obtain ⟨z', hz', rfl⟩ := List.mem_map.1 hzmap
  have hzin := hmem z' (List.mem_cons_of_mem _ hz')
  rw [List.filter_map, List.length_map]
  rw [← hzb] at hother ⊢
  rw [List.filter_congr fun turn ht => ?_]
  · exact Lib.length_between hturns ((l.block_iff hx (hmem y' (by simp))).1 hsame)
      (fun turn ht heq => hnone _ (List.mem_map_of_mem ht) ((l.block_iff hx (hmem turn (by simp [ht]))).2 heq))
      (fun heq => hother ((l.block_iff hx hzin).2 heq)) ⟨z', hz', rfl⟩
  · exact decide_eq_decide.2 (l.block_iff hzin (hmem turn (by simp [ht])))

theorem length_filter_run_le {pre lost post : List ℕ} {last : ℕ} (h : l.order true = pre ++ (lost ++ last :: post))
    (hall : ∀ b ∈ l.blocks, ∃ z ∈ last :: post, l.bodies[z]? = some b.1) (b : UInt8) :
    ((lost ++ [last]).filter fun z => l.bodies[z]? = some b).length ≤
      ((lost ++ [last]).length + l.blocks.length - 1) / l.blocks.length := by
  rw [order_true, inTurns, List.map_eq_append_iff] at h
  obtain ⟨pre', fromLost, hturns, -, hfromLost⟩ := h
  obtain ⟨lost', fromLast, rfl, rfl, hfromLast⟩ := List.map_eq_append_iff.1 hfromLost
  obtain ⟨last', post', rfl, rfl, rfl⟩ := List.map_eq_cons_iff.1 hfromLast
  have hmem : ∀ turn ∈ lost' ++ last' :: post', turn ∈ turns (l.blocks.map Prod.snd) := fun turn ht =>
    hturns ▸ List.mem_append_right pre' ht
  have hstretch : ∀ turn ∈ lost' ++ [last'], turn ∈ turns (l.blocks.map Prod.snd) := fun turn ht =>
    hmem turn (by
      rw [List.mem_append, List.mem_singleton] at ht
      rw [List.mem_append, List.mem_cons]
      exact ht.imp id Or.inl)
  have hqueues : ∀ c < (l.blocks.map Prod.snd).length, ∃ turn ∈ last' :: post', turn.1 = c := by
    intro c hc
    rw [List.length_map] at hc
    obtain ⟨z, hz, hzb⟩ := hall _ (List.getElem_mem hc)
    rw [← List.map_cons] at hz
    obtain ⟨turn, hturn, rfl⟩ := List.mem_map.1 hz
    have hin := hmem turn (List.mem_append_right _ hturn)
    have hqueue := (mem_turns.1 hin).1
    rw [List.length_map] at hqueue
    refine ⟨turn, hturn, l.queue_eq hqueue ?_⟩
    rw [← l.getElem?_bodies hin, hzb, List.getElem?_eq_getElem hc, Option.map_some]
  have hmap : (lost'.map (indexOf l.blocks)) ++ [indexOf l.blocks last'] = (lost' ++ [last']).map (indexOf l.blocks) := by
    rw [List.map_append, List.map_singleton]
  rw [hmap, List.filter_map, List.length_map, List.length_map]
  by_cases hsome : ∃ a ∈ lost' ++ [last'], l.bodies[indexOf l.blocks a]? = some b
  · obtain ⟨a, ha, hab⟩ := hsome
    have hshare := length_filter_stretch_le hturns hqueues a.1
    rw [List.length_map] at hshare
    refine Nat.le_trans (Nat.le_of_eq ?_) hshare
    congr 1
    refine List.filter_congr fun turn ht => decide_eq_decide.2 ?_
    rw [← hab]
    exact l.block_iff (hstretch a ha) (hstretch turn ht)
  · refine Nat.le_trans (Nat.le_of_eq (List.length_eq_zero_iff.2 (List.filter_eq_nil_iff.2 ?_))) (Nat.zero_le _)
    exact fun a ha hab => hsome ⟨a, ha, of_decide_eq_true hab⟩

end Layout

/-- In turns every body goes once, the bodies of a block in their order; between two in a row of one block each
other block that has any left sends one, so that a run of bodies lost while every block has some left costs a
block its share of them at most. -/
theorem interleaved_order (l : Layout) : (l.order true).Perm (List.range l.bodies.length) ∧
      (∀ b, ((l.order true).filter fun x => l.bodies[x]? = b).Pairwise (· < ·)) ∧
      (∀ pre x mid y post, l.order true = pre ++ x :: (mid ++ y :: post) → l.bodies[y]? = l.bodies[x]? →
        (∀ z ∈ mid, l.bodies[z]? ≠ l.bodies[x]?) → ∀ b, some b ≠ l.bodies[x]? →
          (∃ z ∈ mid ++ y :: post, l.bodies[z]? = some b) → (mid.filter fun z => l.bodies[z]? = some b).length = 1) ∧
      (∀ pre lost last post, l.order true = pre ++ (lost ++ last :: post) →
        (∀ b ∈ l.blocks, ∃ z ∈ last :: post, l.bodies[z]? = some b.1) → ∀ b,
          ((lost ++ [last]).filter fun z => l.bodies[z]? = some b).length ≤
            ((lost ++ [last]).length + l.blocks.length - 1) / l.blocks.length) ∧
      (l.blocks.length = 1 → l.order true = List.range l.bodies.length) ∧
      l.order false = List.range l.bodies.length := by
  refine ⟨?_, ?_, ?_, ?_, ?_, l.order_false⟩
  · rw [l.order_true]
    exact l.inTurns_perm
  · rw [l.order_true]
    exact l.pairwise_filter_inTurns
  · exact fun pre x mid y post h hsame hnone b hother hstill => l.length_between h hsame hnone hother hstill
  · exact fun pre lost last post h hall b => l.length_filter_run_le h hall b
  · intro hone
    rw [l.order_true]
    exact l.inTurns_of_length_le hone.le

/-- Three blocks of three bodies, one and two: the third body of the first goes last. -/
theorem interleaved_order_three :
    let l : Layout := ⟨[(0, 3), (1, 1), (2, 2)], by decide, by decide⟩
    l.order true = [0, 3, 4, 1, 5, 2] ∧ ([3, 4].filter fun z => l.bodies[z]? = some 2).length = 1 := by
  intro l
  have horder : l.order true = [0, 3, 4, 1, 5, 2] := by decide +kernel
  refine ⟨horder, (interleaved_order l).2.2.1 [] 0 [3, 4] 1 [5, 2] horder ?_ ?_ 2 ?_ ?_⟩ <;> decide +kernel

end Rdpio.Hyper.Video
