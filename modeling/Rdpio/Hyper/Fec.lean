import Mathlib.Data.List.Basic

/-!
# The erasure code

`crates/rdp-hyper/src/fec.rs`: Reed-Solomon coding over GF(2^8). The tables are built as the source builds
them, and a lost shard is `none`.
-/

namespace Rdpio.Hyper.Fec

def maxShards : ℕ := 255

def poly : UInt16 := 0x11d

structure Tables where
  exp : List UInt8
  log : List UInt8

def double (x : UInt16) : UInt16 :=
  let x := x <<< 1
  if x &&& 0x100 ≠ 0 then x ^^^ poly else x

def buildStep (s : Tables × UInt16) (i : ℕ) : Tables × UInt16 :=
  (⟨s.1.exp.set i s.2.toUInt8, s.1.log.set s.2.toNat (UInt8.ofNat i)⟩, double s.2)

/-- The first loop of `build_tables`. -/
@[irreducible]
def buildPowers : Tables := ((List.range 255).foldl buildStep (⟨List.replicate 512 0, List.replicate 256 0⟩, 1)).1

@[irreducible]
def buildTables : Tables :=
  let t := buildPowers
  { t with exp := (List.range' 255 257).foldl (fun exp i => exp.set i (exp.getD (i - 255) 0)) t.exp }

def mul (a b : UInt8) : UInt8 :=
  if a = 0 ∨ b = 0 then 0
  else buildTables.exp.getD ((buildTables.log.getD a.toNat 0).toNat + (buildTables.log.getD b.toNat 0).toNat) 0

def inv (a : UInt8) : UInt8 := buildTables.exp.getD (255 - (buildTables.log.getD a.toNat 0).toNat) 0

/-- What the hot loop runs on. -/
inductive Cpu where
  | scalar
  | avx2
  | neon

def Cpu.lanes : Cpu → ℕ
  | .scalar => 1
  | .avx2 => 32
  | .neon => 16

structure Nibbles where
  lo : List UInt8
  hi : List UInt8

def nibbles (c : UInt8) : Nibbles where
  lo := (List.range 16).map fun x => mul c (UInt8.ofNat x)
  hi := (List.range 16).map fun x => mul c (UInt8.ofNat x <<< 4)

def Nibbles.add (t : Nibbles) (o s : UInt8) : UInt8 :=
  o ^^^ (t.lo.getD (s &&& 15).toNat 0 ^^^ t.hi.getD (s >>> 4).toNat 0)

def mulAddVector (cpu : Cpu) (out src : List UInt8) (t : Nibbles) : List UInt8 × ℕ :=
  match cpu with
  | .scalar => (out, 0)
  | _ =>
    let n := min out.length src.length / cpu.lanes * cpu.lanes
    (List.zipWith t.add (out.take n) (src.take n) ++ out.drop n, n)

def zipInto (f : UInt8 → UInt8 → UInt8) : List UInt8 → List UInt8 → List UInt8
  | [], _ => []
  | out, [] => out
  | o :: out, s :: src => f o s :: zipInto f out src

def mulAdd (cpu : Cpu) (out src : List UInt8) (c : UInt8) : List UInt8 :=
  if c = 0 then out
  else if c = 1 then zipInto (· ^^^ ·) out src
  else
    let t := nibbles c
    let v := mulAddVector cpu out src t
    v.1.take v.2 ++ zipInto t.add (v.1.drop v.2) (src.drop v.2)

def cauchy (k i j : ℕ) : UInt8 := inv (UInt8.ofNat (k + i) ^^^ UInt8.ofNat j)

def parityShard (cpu : Cpu) (data : List (List UInt8)) (i : ℕ) : List UInt8 :=
  data.zipIdx.foldl (fun p dj => mulAdd cpu p dj.1 (cauchy data.length i dj.2))
    (List.replicate (data.headD []).length 0)

def encode (cpu : Cpu) (data : List (List UInt8)) (m : ℕ) : Option (List (List UInt8)) :=
  if 0 < data.length ∧ data.length + m ≤ maxShards then some ((List.range m).map (parityShard cpu data))
  else none

abbrev Square (e : ℕ) := Vector (Vector UInt8 e) e

def Square.entry {e : ℕ} (a : Square e) (r c : Fin e) : UInt8 := a[r][c]

def Square.swapRows {e : ℕ} (a : Square e) (i j : Fin e) : Square e := a.swap i j

def Square.scaleRow {e : ℕ} (a : Square e) (i : Fin e) (f : UInt8) : Square e := a.set i (a[i].map fun x => mul x f)

def Square.subRow {e : ℕ} (a : Square e) (r i : Fin e) (f : UInt8) : Square e :=
  a.set r (Vector.ofFn fun c : Fin e => a[r][c] ^^^ mul f a[i][c])

def cauchySquare {e : ℕ} (k : ℕ) (parity missing : Fin e → ℕ) : Square e :=
  Vector.ofFn fun r => Vector.ofFn fun c => cauchy k (parity r) (missing c)

def eliminateRow {e : ℕ} (col : Fin e) (ab : Square e × Square e) (r : Fin e) : Square e × Square e :=
  if r ≠ col ∧ ab.1.entry r col ≠ 0 then
    let f := ab.1.entry r col
    (ab.1.subRow r col f, ab.2.subRow r col f)
  else ab

def eliminateColumn {e : ℕ} (ab : Square e × Square e) (col : Fin e) :
    Option (Square e × Square e) := do
  let pivot ← (List.finRange e).find? fun r => col ≤ r ∧ ab.1.entry r col ≠ 0
  let a := ab.1.swapRows col pivot
  let b := ab.2.swapRows col pivot
  let f := inv (a.entry col col)
  return (List.finRange e).foldl (eliminateRow col) (a.scaleRow col f, b.scaleRow col f)

def invert {e : ℕ} (a : Square e) : Option (Square e) :=
  ((List.finRange e).foldlM eliminateColumn
    (a, Vector.ofFn fun r => Vector.ofFn fun c => if r = c then 1 else 0)).map Prod.snd

def missingShards (shards : List (Option (List UInt8))) (k : ℕ) : List ℕ :=
  (List.range k).filter fun j => (shards.getD j none).isNone

def usedParity (shards : List (Option (List UInt8))) (k : ℕ) : List ℕ :=
  ((List.range (shards.length - k)).filter fun i => (shards.getD (k + i) none).isSome).take
    (missingShards shards k).length

def residual (cpu : Cpu) (shards : List (Option (List UInt8))) (k i : ℕ) : List UInt8 :=
  ((List.range k).filter fun j => (shards.getD j none).isSome).foldl
    (fun r j => mulAdd cpu r ((shards.getD j none).getD []) (cauchy k i j))
    ((shards.getD (k + i) none).getD [])

def rebuiltShard (cpu : Cpu) (len : ℕ) (residuals : List (List UInt8)) {e : ℕ} (b : Square e)
    (x : Fin e) : List UInt8 :=
  residuals.zipIdx.foldl (fun out rr => mulAdd cpu out rr.1 (b[x].getD rr.2 0)) (List.replicate len 0)

def reconstruct (cpu : Cpu) (shards : List (Option (List UInt8))) (k : ℕ) : Bool × List (Option (List UInt8)) :=
  let missing := missingShards shards k
  if missing.isEmpty then (true, shards)
  else
    let parity := usedParity shards k
    if parity.length < missing.length then (false, shards)
    else
      let e := missing.length
      let len := ((shards.getD (k + parity.headD 0) none).getD []).length
      let residuals := parity.map (residual cpu shards k)
      match invert (cauchySquare (e := e) k (fun r => parity.getD r 0) fun c => missing.getD c 0) with
      | none => (false, shards)
      | some b =>
        let rebuilt := (List.finRange e).map (rebuiltShard cpu len residuals b)
        (true, (missing.zip rebuilt).foldl (fun shards jo => shards.set jo.1 (some jo.2)) shards)

end Rdpio.Hyper.Fec
