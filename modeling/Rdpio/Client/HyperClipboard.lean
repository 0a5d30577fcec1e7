import Mathlib.Data.List.DropRight
import Rdpio.Channels.Cliprdr

/-!
# Copied files coming in

The receiving side of `crates/rdp-client/src/hyper_clipboard.rs`.
-/

namespace Rdpio.Client.HyperClipboard

abbrev Path := List (List Char)

structure FileEntry where
  name : List Char
  size : UInt64
  is_dir : Bool
deriving DecidableEq

def maxFilesBytes : ℕ := 4 * 1024 * 1024 * 1024

def maxFiles : ℕ := 65536

def maxName : ℕ := 1024

def maxDepth : ℕ := 64

def minFreeBytes : ℕ := 1024 * 1024 * 1024

def saturatingAdd (a b : ℕ) : ℕ := min (a + b) (2^64 - 1)

def isSeparator (c : Char) : Bool := c = '\\' || c = '/'

def deviceDigits : List (List Char) :=
  [['1'], ['2'], ['3'], ['4'], ['5'], ['6'], ['7'], ['8'], ['9'], ['¹'], ['²'], ['³']]

def devices : List (List Char) :=
  [['C', 'O', 'N'], ['P', 'R', 'N'], ['A', 'U', 'X'], ['N', 'U', 'L'],
    ['C', 'O', 'N', 'I', 'N', '$'], ['C', 'O', 'N', 'O', 'U', 'T', '$']]

def isDeviceName (name : List Char) : Bool :=
  let stem := ((name.takeWhile (· ≠ '.')).rdropWhile (· = ' ')).map Char.toUpper
  devices.contains stem ||
    ((['C', 'O', 'M'].isPrefixOf stem || ['L', 'P', 'T'].isPrefixOf stem) && deviceDigits.contains (stem.drop 3))

def refusedComponent (c : List Char) : Bool :=
  c.getLast?.any (fun l => l = '.' || l = ' ') || c.contains ':' || isDeviceName c

def relativeComponents : List (List Char) → Option Path
  | [] => some []
  | c :: cs =>
    if c = [] ∨ c = ['.'] then relativeComponents cs
    else if refusedComponent c then none
    else (relativeComponents cs).map (c :: ·)

def relativePath (name : List Char) : Option Path := (relativeComponents (name.splitOnP isSeparator)).filter (· ≠ [])

def safeJoin (base : Path) (name : List Char) : Option Path := (relativePath name).map (base ++ ·)

/-- Why a list is refused. -/
inductive Refusal
  | entries (n : ℕ)
  | nesting (name : List Char)
  | escape (name : List Char)
  | bytes (total : ℕ)
deriving DecidableEq

def checkNames : List FileEntry → ℕ → Except Refusal ℕ
  | [], total => .ok total
  | e :: entries, total =>
    if maxName < (Channels.Cliprdr.toUtf16 e.name).length ∨
        maxDepth < ((e.name.splitOnP isSeparator).filter (· ≠ [])).length then
      .error (.nesting (e.name.take 80))
    else if relativePath e.name = none then .error (.escape (e.name.take 80))
    else checkNames entries (if e.is_dir then total else saturatingAdd total e.size.toNat)

def checkEntries (entries : List FileEntry) : Except Refusal ℕ :=
  if maxFiles < entries.length then .error (.entries entries.length)
  else
    match checkNames entries 0 with
    | .error why => .error why
    | .ok total => if maxFilesBytes < total then .error (.bytes total) else .ok total

/-- An operation that worked. -/
inductive Op
  | removeDirAll (path : Path)
  | createDirAll (path : Path)
  | create (path : Path)
  | write (path : Path) (offset : ℕ) (data : List UInt8)
deriving DecidableEq

structure Env where
  user : Option Path
  acts : Bool := true
  free : Option ℕ := none
  removes : Bool := true
  creates : Path → Bool := fun _ => true
  stops : Option ℕ := none

abbrev Disk := Path → Option (List UInt8)

def writeAt (bytes : List UInt8) (offset : ℕ) (data : List UInt8) : List UInt8 :=
  bytes.take offset ++ List.replicate (offset - bytes.length) 0 ++ data ++ bytes.drop (offset + data.length)

/-- What an operation does to the files. -/
def Op.apply (disk : Disk) : Op → Disk
  | .removeDirAll path => fun p => if path <+: p then none else disk p
  | .createDirAll _ => disk
  | .create path => Function.update disk path (some [])
  | .write path offset data =>
    if data = [] then disk
    else Function.update disk path (some (writeAt ((disk path).getD []) offset data))

structure Incoming where
  transfer : UInt32
  dir : Path
  root : Path
  entries : List FileEntry
  open_files : List UInt32 := []
  received : UInt32 → ℕ := fun _ => 0
  remaining : ℕ
  got : List ℕ

structure Outcome where
  slot : Option Incoming
  ops : List Op := []
  paste : Option (List Path) := none

def abandon (env : Env) : Option Incoming → List Op
  | none => []
  | some inc => if env.acts && env.removes then [.removeDirAll inc.dir] else []

def finished (inc : Incoming) : Option (List Path) :=
  let roots := (inc.entries.filter fun e => !e.name.any isSeparator).filterMap
    fun e => safeJoin inc.dir e.name
  if roots = [] then none else some roots

def layOutEntry (env : Env) (dir : Path) (e : FileEntry) : List Op :=
  match safeJoin dir e.name with
  | none => []
  | some path =>
    if e.is_dir then (if env.creates path then [.createDirAll path] else [])
    else
      (if env.creates path.dropLast then [.createDirAll path.dropLast] else []) ++
        if e.size = 0 ∧ env.creates path then [.create path] else []

def hasData (e : FileEntry) : Bool := !e.is_dir && e.size ≠ 0 && (relativePath e.name).isSome

def layOut (env : Env) (root dir : Path) (entries : List FileEntry) (total : ℕ) : Option ℕ × List Op :=
  if env.free.any (· < saturatingAdd total minFreeBytes) then (none, [])
  else
    let removed := if env.removes then [Op.removeDirAll root] else []
    if env.creates dir then
      (some (entries.countP hasData), removed ++ [.createDirAll dir] ++ entries.flatMap (layOutEntry env dir))
    else (none, removed)

/-- Start an inbound copy. -/
def beginFiles (env : Env) (slot : Option Incoming) (root : Path) (transfer : UInt32)
    (entries : List FileEntry) : Outcome :=
  match checkEntries entries with
  | .error _ => { slot }
  | .ok total =>
    let dir := root ++ [Nat.toDigits 10 transfer.toNat]
    if env.acts then
      match layOut env root dir entries total with
      | (none, ops) => { slot, ops }
      | (some remaining, ops) =>
        let inc : Incoming :=
          { transfer, dir, root, entries, remaining, got := List.replicate entries.length 0 }
        if remaining = 0 then { slot, ops, paste := finished inc } else { slot := some inc, ops }
    else { slot }

def outside (entry : FileEntry) (offset : UInt64) (data : List UInt8) : Bool :=
  entry.is_dir || entry.size.toNat < offset.toNat + data.length

def written (inc : Incoming) (index : UInt32) (size : ℕ) (data : List UInt8) (ops : List Op) : Outcome :=
  let now := inc.received index + data.length
  let inc := { inc with
    open_files := index :: inc.open_files
    received := Function.update inc.received index now
    got := inc.got.set index.toNat now }
  if now < size then { slot := some inc, ops }
  else
    let inc := { inc with
      open_files := inc.open_files.filter (· ≠ index)
      remaining := inc.remaining - 1 }
    if 0 < inc.remaining then { slot := some inc, ops }
    else { slot := none, ops, paste := finished inc }

def fileChunk (env : Env) (slot : Option Incoming) (transfer index : UInt32) (offset : UInt64)
    (data : List UInt8) : Outcome :=
  match slot.filter (·.transfer = transfer) with
  | none => { slot }
  | some inc =>
    match inc.entries[index.toNat]? with
    | none => { slot }
    | some entry =>
      if outside entry offset data then { slot := none, ops := abandon env slot }
      else
        match safeJoin inc.dir entry.name with
        | none => { slot }
        | some path =>
          if entry.size.toNat ≤ inc.received index then { slot }
          else if index ∉ inc.open_files ∧ (env.acts && env.creates path) = false then
            { slot := none, ops := abandon env slot }
          else
            let opened := if index ∈ inc.open_files then [] else [Op.create path]
            match env.stops with
            | some k =>
              { slot := none
                ops := opened ++ [.write path offset.toNat (data.take k)] ++ abandon env slot }
            | none => written inc index entry.size.toNat data (opened ++ [.write path offset.toNat data])

/-- What comes over the link. -/
inductive Message
  | clipboardFiles (transfer : UInt32) (entries : List FileEntry)
  | fileChunk (transfer index : UInt32) (offset : UInt64) (data : List UInt8)
deriving DecidableEq

def applyNow (env : Env) (slot : Option Incoming) : Message → Outcome
  | .clipboardFiles transfer entries =>
    let dropped := abandon env slot
    match env.user with
    | none => { slot := none, ops := dropped }
    | some root =>
      let o := beginFiles env none root transfer entries
      { o with ops := dropped ++ o.ops }
  | .fileChunk transfer index offset data => fileChunk env slot transfer index offset data

end Rdpio.Client.HyperClipboard
