import Mathlib.Data.List.DropRight
import Rdpio.Lib.Bytes

/-!
# Updates

`crates/rdp-hyper/src/update.rs`: signed release packages, the host's side that hands its own out (`Serve`), and
the client's side that downloads it in chunks (`Fetch`).
-/

namespace Rdpio.Hyper.Update

open Lib

abbrev Text := List Char

def asBytes (t : Text) : List UInt8 := (String.ofList t).toUTF8.data.toList

def product : Text := "rdpio-windows-x86_64".toList

def maxSize : UInt64 := 268435456

def chunk : ℕ := 1152

def maxGet : UInt16 := 256

/-- What a release is. -/
structure Manifest where
  product : Text
  version : Text
  build : Text
  protocol_min : UInt8
  protocol_max : UInt8
  size : UInt64
  sha256 : Text
deriving DecidableEq

structure Signed where
  manifest : Text
  signature : Text
deriving DecidableEq

/-- The libraries. -/
structure Libs where
  signedFromSlice : List UInt8 → Option Signed
  manifestFromStr : Text → Option Manifest
  base64Decode : Text → Option (List UInt8)
  ed25519Verify : List UInt8 → List UInt8 → List UInt8 → Bool
  sha256 : List UInt8 → List UInt8

def hex (b : UInt8) : Text := [Nat.digitChar (b.toNat / 16), Nat.digitChar (b.toNat % 16)]

def sha256Hex (libs : Libs) (data : List UInt8) : Text := (libs.sha256 data).flatMap hex

def Manifest.isOf (libs : Libs) (m : Manifest) (exe : List UInt8) : Bool :=
  exe.length = m.size.toNat && sha256Hex libs exe = m.sha256

def isWhitespace (c : Char) : Bool :=
  (9 ≤ c.toNat && c.toNat ≤ 13) || (0x2000 ≤ c.toNat && c.toNat ≤ 0x200A) ||
    [0x20, 0x85, 0xA0, 0x1680, 0x2028, 0x2029, 0x202F, 0x205F, 0x3000].contains c.toNat

def trim (t : Text) : Text := (t.dropWhile isWhitespace).rdropWhile isWhitespace

def parseU64 (t : Text) : Option ℕ :=
  let digits := if t.head? = some '+' then t.drop 1 else t
  if digits ≠ [] ∧ digits.all Char.isDigit then
    let value := digits.foldl (fun n c => 10 * n + (c.toNat - '0'.toNat)) 0
    if value < 2^64 then some value else none
  else none

def numbers (t : Text) : List ℕ := (t.splitOnP (· = '.')).map fun p => (parseU64 p).getD 0

def versionParts (v : Text) : List ℕ :=
  let core := ((trim v).dropWhile (· = 'v')).takeWhile fun c => c ≠ '-' && c ≠ '+'
  let parts := numbers core
  parts ++ List.replicate (3 - parts.length) 0

def buildTime (b : Text) : List ℕ := numbers (b.takeWhile fun c => c ≠ '+' && c ≠ ' ' && c ≠ '(')

def newer (a b : Text × Text) : Bool :=
  let va := versionParts a.1
  let vb := versionParts b.1
  if va ≠ vb then decide (vb < va) else decide (buildTime b.2 < buildTime a.2)

def Manifest.newerThan (m : Manifest) (version build : Text) : Bool := newer (m.version, m.build) (version, build)

inductive UpdateError
  | malformed
  | signature
  | product (name : Text)
  | tooBig
  | mismatch
deriving DecidableEq

def UpdateError.text : UpdateError → Text
  | .malformed => "not an update package".toList
  | .signature => "the package's signature isn't the release key's".toList
  | .product name => "the package is for ".toList ++ name ++ ", not this rdpio".toList
  | .tooBig => "the package is bigger than any rdpio".toList
  | .mismatch => "the downloaded file isn't the one the package describes".toList

def Signed.parse (libs : Libs) (bytes : List UInt8) : Except UpdateError Signed :=
  match libs.signedFromSlice bytes with
  | none => .error .malformed
  | some signed => .ok signed

def Signed.verifyWith (libs : Libs) (s : Signed) (key : List UInt8) : Except UpdateError Manifest :=
  match libs.base64Decode s.signature with
  | none => .error .malformed
  | some sig =>
    if libs.ed25519Verify key (asBytes s.manifest) sig then
      match libs.manifestFromStr s.manifest with
      | none => .error .malformed
      | some m =>
        if m.product ≠ product then .error (.product m.product)
        else if maxSize < m.size then .error .tooBig
        else .ok m
    else .error .signature

def verified (libs : Libs) (key bytes : List UInt8) : Except UpdateError Manifest :=
  match Signed.parse libs bytes with
  | .error e => .error e
  | .ok signed => signed.verifyWith libs key

inductive UpdateMsg
  | getManifest
  | manifest (bytes : List UInt8)
  | get (first : UInt32) (count : UInt16)
  | chunk (index : UInt32) (data : List UInt8)
  | unavailable
  | done
deriving DecidableEq

def UpdateMsg.toBytes : UpdateMsg → List UInt8
  | .getManifest => [1]
  | .manifest bytes => 2 :: bytes
  | .get first count => 3 :: (leBytes 4 first.toNat ++ leBytes 2 count.toNat)
  | .chunk index data => 4 :: (leBytes 4 index.toNat ++ data)
  | .unavailable => [5]
  | .done => [6]

def UpdateMsg.parse : List UInt8 → Option UpdateMsg
  | [] => none
  | op :: rest =>
    if op = 1 then some .getManifest
    else if op = 2 then some (.manifest rest)
    else if op = 3 then
      if 6 ≤ rest.length then
        some (.get (UInt32.ofNat (ofLe (rest.take 4))) (UInt16.ofNat (ofLe ((rest.drop 4).take 2))))
      else none
    else if op = 4 then
      if 4 ≤ rest.length then some (.chunk (UInt32.ofNat (ofLe (rest.take 4))) (rest.drop 4)) else none
    else if op = 5 then some .unavailable
    else if op = 6 then some .done
    else none

/-- The host's side: answers messages from its package. -/
structure Serve where
  signed : List UInt8
  exe : List UInt8
  manifest : Manifest

def Serve.newWith (libs : Libs) (signed exe key : List UInt8) : Except UpdateError Serve :=
  match verified libs key signed with
  | .error e => .error e
  | .ok manifest => if manifest.isOf libs exe then .ok ⟨signed, exe, manifest⟩ else .error .mismatch

def divCeil (a b : ℕ) : ℕ := (a + b - 1) / b

def Serve.chunkOf (s : Serve) (i : ℕ) : List UInt8 := (s.exe.drop (i * chunk)).take chunk

/-- The replies to a message. -/
def Serve.answer (s : Serve) : UpdateMsg → List (List UInt8)
  | .getManifest => [(UpdateMsg.manifest s.signed).toBytes]
  | .get first count =>
    let chunks := divCeil s.exe.length chunk
    let end_ := min (first.toNat + (min count.toNat maxGet.toNat)) chunks
    (List.range' first.toNat (end_ - first.toNat)).map fun i => (UpdateMsg.chunk (UInt32.ofNat i) (s.chunkOf i)).toBytes
  | _ => []

/-! ## The client's side -/

/-- How a download stands. -/
inductive FetchState
  | asking
  | downloading (version : Text) (got size : ℕ)
  | done
  | failed (why : Text)
deriving DecidableEq

/-- A finished download. -/
structure Package where
  signed : List UInt8
  manifest : Manifest
  exe : List UInt8
deriving DecidableEq

def resendAfter : ℕ := 400000000

def manifestEvery : ℕ := 300000000

structure Fetch where
  our : Text × Text
  key : List UInt8
  signed : Option (List UInt8) := none
  manifest : Option Manifest := none
  data : List UInt8 := []
  got : List Bool := []
  asked : List (Option ℕ) := []
  missing : ℕ := 0
  cursor : ℕ := 0
  manifest_asked : Option ℕ := none
  state : FetchState := .asking
  package : Option Package := none

def Fetch.withKey (version build : Text) (key : List UInt8) : Fetch := { our := (version, build), key }

def Fetch.finished (f : Fetch) : Bool :=
  match f.state with
  | .done => true
  | .failed _ => true
  | _ => false

def Fetch.take (f : Fetch) : Fetch × Option Package := ({ f with package := none }, f.package)

def longAgo (now wait : ℕ) (asked : Option ℕ) : Bool := asked.all fun t => wait ≤ now - t

/-- What a scan for missing chunks has come to. -/
structure Scan where
  asked : List (Option ℕ)
  count : ℕ := 0
  run : Option (UInt32 × UInt16) := none
  out : List UpdateMsg := []
  scanned : ℕ := 0

def requestOf : Option (UInt32 × UInt16) → List UpdateMsg
  | none => []
  | some (first, count) => [.get first count]

def Scan.ask (s : Scan) (i now : ℕ) : Scan :=
  let s := { s with asked := s.asked.set i (some now), count := s.count + 1 }
  let next : Scan := { s with out := s.out ++ requestOf s.run, run := some (UInt32.ofNat i, 1) }
  match s.run with
  | some (first, count) =>
    if first.toNat + count.toNat = i ∧ count < maxGet then { s with run := some (first, count + 1) }
    else next
  | none => next

/-- The next chunk round from the cursor. -/
def Fetch.scanOne (f : Fetch) (now : ℕ) (s : Scan) : Scan :=
  let i := (f.cursor + s.scanned) % f.got.length
  let due := !f.got.getD i false && longAgo now resendAfter (s.asked.getD i none)
  let s := { s with scanned := s.scanned + 1 }
  if due then s.ask i now else s

def Fetch.scan (f : Fetch) (now budget : ℕ) : ℕ → Scan → Scan
  | 0, s => s
  | left + 1, s => if s.count < budget then f.scan now budget left (f.scanOne now s) else s

/-- What to send now: at most `budget` chunks asked for. -/
def Fetch.poll (f : Fetch) (now budget : ℕ) : Fetch × List UpdateMsg :=
  if f.finished then (f, [])
  else
    match f.manifest with
    | none =>
      if longAgo now manifestEvery f.manifest_asked then ({ f with manifest_asked := some now }, [.getManifest])
      else (f, [])
    | some _ =>
      let n := f.got.length
      let s := f.scan now budget n { asked := f.asked }
      ({ f with asked := s.asked, cursor := (f.cursor + s.scanned) % max n 1 }, s.out ++ requestOf s.run)

/-- All chunks are there. -/
def Fetch.finish (libs : Libs) (f : Fetch) (m : Manifest) : Fetch :=
  if m.isOf libs f.data then
    { f with
      package := some ⟨f.signed.getD [], m, f.data⟩
      signed := none
      data := []
      state := .done }
  else { f with state := .failed (UpdateError.text .mismatch) }

def Fetch.onManifest (libs : Libs) (f : Fetch) (bytes : List UInt8) : Fetch :=
  match verified libs f.key bytes with
  | .error e => { f with state := .failed e.text }
  | .ok m =>
    if m.newerThan f.our.1 f.our.2 then
      let chunks := divCeil m.size.toNat chunk
      let f := { f with
        data := List.replicate m.size.toNat 0
        got := List.replicate chunks false
        asked := List.replicate chunks none
        missing := chunks
        state := .downloading m.version 0 m.size.toNat
        signed := some bytes
        manifest := some m }
      if chunks = 0 then f.finish libs m else f
    else
      { f with state := .failed ("the host's rdpio (".toList ++ m.version ++ " ".toList ++ m.build ++
        ") isn't newer".toList) }

def splice (data : List UInt8) (i : ℕ) (bytes : List UInt8) : List UInt8 :=
  data.take i ++ bytes ++ data.drop (i + bytes.length)

def FetchState.more : FetchState → ℕ → FetchState
  | .downloading version got size, n => .downloading version (got + n) size
  | state, _ => state

def Fetch.onChunk (libs : Libs) (f : Fetch) (index : UInt32) (data : List UInt8) : Fetch :=
  match f.manifest with
  | none => f
  | some m =>
    let i := index.toNat
    if f.got.length ≤ i ∨ f.got.getD i false = true then f
    else
      let start := i * chunk
      let want := min (m.size.toNat - start) chunk
      if data.length ≠ want then f
      else
        let f := { f with
          data := splice f.data start data
          got := f.got.set i true
          missing := f.missing - 1
          state := f.state.more want }
        if f.missing = 0 then f.finish libs m else f

/-- Take in a message from the host. -/
def Fetch.onMsg (libs : Libs) (f : Fetch) (msg : UpdateMsg) : Fetch :=
  if f.finished then f
  else
    match msg with
    | .unavailable => { f with state := .failed "the host has no update to give".toList }
    | .manifest bytes => if f.manifest.isNone then f.onManifest libs bytes else f
    | .chunk index data => f.onChunk libs index data
    | _ => f

end Rdpio.Hyper.Update
