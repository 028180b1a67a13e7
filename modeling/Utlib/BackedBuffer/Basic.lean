import Mathlib.Logic.Function.Basic
import Utlib.Program
import Utlib.Sequence

/-! `utl::BackedBuffer` (storage/BackedBuffer.h, storage/BackedBuffer.cpp).  Sizes and
offsets are `Nat`, since every public call asserts that they are not negative; differences
are `Int`, so that the assertions about them mean what they say. -/

namespace Utlib

namespace BackedBuffer

def pageSize : Nat := 4096

inductive Page where | absent | clean | dirty
  deriving DecidableEq

inductive IOFault where | fileNotFound | fileCantRead | fileCantWrite
  deriving DecidableEq

inductive Exn (Path : Type) where
  | badAlloc
  | filesystemError
  | ioError (fault : IOFault) (file : Option Path)
  deriving DecidableEq

/-- Only `throws` leaves the program running; the other two are what the claims about
assertions and indices exclude. -/
inductive Failure (Path : Type) where
  | throws (e : Exn Path)
  | assertion
  | outOfBounds
  deriving DecidableEq

/-- `std::fstream out`.  Bytes it was given wait in `pending` until a flush or a close;
`failed` is its error state, which only a successful `open` clears. -/
structure OutStream (Path : Type) where
  openOn : Option Path := none
  failed : Bool := false
  pending : List (Nat × List UInt8) := []

end BackedBuffer

open BackedBuffer in
structure BackedBuffer (Path : Type) where
  readOnly : Bool := false
  file : Option Path := none
  inStream : Option Path := none
  out : OutStream Path := {}
  fileBytes : Nat := 0
  mem : Option (List UInt8) := none
  bytes : Nat := 0
  pages : List Page := []
  dirtyPages : Int := 0

namespace BackedBuffer

open Program Sequence

variable {Path : Type}

abbrev Disk (Path : Type) := Path → Option (List UInt8)

inductive FileStep where
  | grow (size : Nat)
  | openOut
  | write (offset len : Nat)
  | flush
  | close
  deriving DecidableEq

/-- What the environment does during one call.  `storage` and `table` are allocations of the
buffer's memory and of its page table, `junk` is what fresh memory holds, `read o = some k`
stops a read at offset `o` after `k` bytes, and the `Lands` fields say how many waiting bytes
reach the file when the step before them fails. -/
structure Faults where
  storage : Bool := false
  table : Bool := false
  path : Bool := false
  junk : Nat → UInt8 := fun _ => 0
  probe : Bool := false
  openIn : Bool := false
  fileSize : Bool := false
  read : Nat → Option Nat := fun _ => none
  grow : Bool := false
  openOut : Bool := false
  write : Nat → Bool := fun _ => false
  writeLands : Nat := 0
  flush : Bool := false
  flushLands : Nat := 0
  close : Bool := false
  closeLands : Nat := 0

/-- A buffer together with the file system around it and the outcomes of the steps that
were made towards writing files. -/
structure World (Path : Type) where
  buf : BackedBuffer Path
  disk : Disk Path
  log : List (FileStep × Bool) := []

abbrev Action (Path : Type) := EStateM (Failure Path) (World Path)

section

def buffer : Action Path (BackedBuffer Path) := (·.buf) <$> get

def edit (g : BackedBuffer Path → BackedBuffer Path) : Action Path Unit :=
  modify fun w => { w with buf := g w.buf }

def throwIOError (fault : IOFault) (file : Option Path) : Action Path Unit :=
  throw (.throws (.ioError fault file))

def record (step : FileStep) (good : Bool) : Action Path Unit :=
  modify fun w => { w with log := w.log ++ [(step, good)] }

def isPage (state : Page) (p : Nat) (w : World Path) : Except (Failure Path) Bool :=
  match w.buf.pages[p]? with
  | some s => .ok (s = state)
  | none => .error .outOfBounds

def touch (offset len : Nat) : Action Path Unit := do
  let b ← buffer
  require (offset + len ≤ (b.mem.getD []).length) .outOfBounds

def store (offset : Nat) (data : List UInt8) : Action Path Unit :=
  edit fun b => { b with mem := b.mem.map fun m => overwrite 0 m offset data }

def memset (offset : Nat) (value : UInt8) (len : Nat) : Action Path Unit := do
  touch offset len
  store offset (List.replicate len value)

def clamp (v lo hi : Nat) : Nat := if v < lo then lo else if hi < v then hi else v

/-- `(size + pageSize - 1) / pageSize` -/
def pageCount (size : Nat) : Nat := (size + pageSize - 1) / pageSize

end

section Streams

variable [DecidableEq Path]

def modifyFile (file : Option Path) (g : List UInt8 → List UInt8) (disk : Disk Path) :
    Disk Path :=
  match file with
  | some path => Function.update disk path ((disk path).map g)
  | none => disk

def outOpen (f : Faults) (file : Option Path) : Action Path Unit := do
  let w ← get
  if f.openOut ∨ (file.bind w.disk).isNone then
    edit fun b => { b with out := { b.out with failed := true } }
    record .openOut false
  else
    edit fun b => { b with out := { openOn := file } }
    record .openOut true

/-- `out.seekp(offset); out.write(data)` -/
def outWrite (f : Faults) (offset : Nat) (data : List UInt8) : Action Path Unit := do
  let b ← buffer
  let waiting := b.out.pending ++ [(offset, data)]
  if b.out.failed then
    record (.write offset data.length) false
  else if f.write offset then
    modify fun w => { w with
      buf := { b with out := { b.out with
        failed := true
        pending := (drain 0 f.writeLands waiting []).2 } }
      disk := modifyFile b.out.openOn (fun c => (drain 0 f.writeLands waiting c).1) w.disk }
    record (.write offset data.length) false
  else
    edit fun b => { b with out := { b.out with pending := waiting } }
    record (.write offset data.length) true

def outFlush (f : Faults) : Action Path Unit := do
  let b ← buffer
  if b.out.failed then
    record .flush false
  else if f.flush then
    modify fun w => { w with
      buf := { b with out := { b.out with
        failed := true
        pending := (drain 0 f.flushLands b.out.pending []).2 } }
      disk := modifyFile b.out.openOn (fun c => (drain 0 f.flushLands b.out.pending c).1) w.disk }
    record .flush false
  else
    modify fun w => { w with
      buf := { b with out := { b.out with pending := [] } }
      disk := modifyFile b.out.openOn (settle 0 b.out.pending) w.disk }
    record .flush true

/-- `out.close()` reports its own failure in the error state and closes the file all the same. -/
def outClose (f : Faults) : Action Path Unit := do
  let b ← buffer
  if b.out.openOn.isNone then
    edit fun b => { b with out := { b.out with failed := true } }
  else if f.close then
    modify fun w => { w with
      buf := { b with out := { failed := true } }
      disk := modifyFile b.out.openOn (fun c => (drain 0 f.closeLands b.out.pending c).1) w.disk }
    record .close false
  else
    modify fun w => { w with
      buf := { b with out := { failed := b.out.failed } }
      disk := modifyFile b.out.openOn (settle 0 b.out.pending) w.disk }
    record .close true

end Streams

section Loading

def World.inContent (w : World Path) : List UInt8 := ((w.buf.inStream.bind w.disk).getD [])

/-- The bytes `in.read` delivers. -/
def World.arriving (w : World Path) (f : Faults) (offset len : Nat) : List UInt8 :=
  match f.read offset with
  | none => slice w.inContent offset len
  | some k => (slice w.inContent offset len).take k

def readFile (f : Faults) (dst offset : Nat) (len : Int) : Action Path Unit := do
  let w ← get
  require (0 ≤ len ∧ offset + len ≤ w.buf.fileBytes) .assertion
  touch dst len.toNat
  store dst (w.arriving f offset len.toNat)
  if (f.read offset).isSome ∨ (w.arriving f offset len.toNat).length ≠ len.toNat then
    throwIOError .fileCantRead w.buf.file

/-- Completes `[first, stop)` from the file where it has the bytes, zero elsewhere; the
common part of `fetch` and `resize`. -/
def fill (f : Faults) (first stop : Nat) : Action Path Unit := do
  let b ← buffer
  let covered := clamp b.fileBytes first stop
  if first < covered then readFile f first first ((covered : Int) - first)
  if covered < stop then memset covered 0 (stop - covered)

def setPage (state : Page) (p : Nat) : Action Path Unit := do
  let b ← buffer
  require (p < b.pages.length) .outOfBounds
  edit fun b => { b with pages := b.pages.set p state }

def fetch (f : Faults) (first last : Nat) : Action Path Unit := do
  let b ← buffer
  fill f (first * pageSize) (min (last * pageSize) b.bytes)
  forRange (setPage .clean) (last - first) first

def load (f : Faults) (offset len : Nat) : Action Path Unit := do
  if len ≠ 0 then
    let last := (offset + len - 1) / pageSize
    forRuns (isPage .absent) (fetch f) (last + 1) (last + 1 - offset / pageSize)
      (offset / pageSize)

def byteView (f : Faults) (offset len : Nat) : Action Path (List UInt8) := do
  let b ← buffer
  require (offset + len ≤ b.bytes) .assertion
  load f offset len
  let b ← buffer
  return slice (b.mem.getD []) offset len

def markDirty (p : Nat) : Action Path Unit := do
  if !(← look (isPage .dirty p)) then
    setPage .dirty p
    edit fun b => { b with dirtyPages := b.dirtyPages + 1 }

def mutableByteView (f : Faults) (offset len : Nat) : Action Path Unit := do
  let b ← buffer
  require (offset + len ≤ b.bytes) .assertion
  load f offset len
  if len ≠ 0 then
    forRange markDirty ((offset + len - 1) / pageSize + 1 - offset / pageSize) (offset / pageSize)

end Loading

section Persisting

variable [DecidableEq Path]

/-- The part of `writeFile` that opens the file, without truncating it, when first needed. -/
def openFile (f : Faults) : Action Path Unit := do
  let b ← buffer
  if b.out.openOn.isNone then
    outOpen f b.file
    let b ← buffer
    if b.out.openOn.isNone then throwIOError .fileCantWrite b.file

def writeFile (f : Faults) (src offset : Nat) (len : Int) : Action Path Unit := do
  let b ← buffer
  require (0 ≤ len ∧ offset + len ≤ b.fileBytes) .assertion
  openFile f
  touch src len.toNat
  outWrite f offset (slice (b.mem.getD []) src len.toNat)
  let b ← buffer
  if b.out.failed then throwIOError .fileCantWrite b.file

def growFile (f : Faults) (newSize : Nat) : Action Path Unit := do
  let b ← buffer
  if b.fileBytes < newSize then
    if b.out.openOn.isSome then outFlush f
    let w ← get
    if f.grow ∨ (b.file.bind w.disk).isNone then
      record (.grow newSize) false
      throwIOError .fileCantWrite b.file
    modify fun w => { w with disk := modifyFile b.file (·.takeD newSize 0) w.disk }
    record (.grow newSize) true
    edit fun b => { b with fileBytes := newSize }

def closeFile (f : Faults) : Action Path Unit := do
  let b ← buffer
  if b.out.openOn.isSome then
    outFlush f
    let b ← buffer
    outClose f
    if b.out.failed then throwIOError .fileCantWrite b.file

def writeRun (f : Faults) (p q : Nat) : Action Path Unit := do
  let b ← buffer
  writeFile f (p * pageSize) (p * pageSize)
    ((min (q * pageSize) b.bytes : Nat) - (p * pageSize : Nat))

def markClean : Page → Page
  | .dirty => .clean
  | s => s

def persist (f : Faults) : Action Path Unit := do
  let b ← buffer
  if b.readOnly ∨ b.file.isNone ∨ b.dirtyPages = 0 then pure ()
  else
    growFile f b.bytes
    let count := b.pages.length
    forRuns (isPage .dirty) (writeRun f) count count 0
    closeFile f
    edit fun b => { b with pages := b.pages.map markClean, dirtyPages := 0 }

end Persisting

section Allocating

variable [DecidableEq Path]

def dealloc (f : Faults) : Action Path Unit := do
  outClose f
  edit fun b => { out := b.out }

def allocate (f : Faults) (size : Nat) : List UInt8 := (List.range size).map f.junk

/-- `realloc` keeps what both sizes have; the rest is whatever the memory held before. -/
def reallocate (f : Faults) (old : List UInt8) (size : Nat) : List UInt8 :=
  overwrite 0 (allocate f size) 0 (old.take size)

/-- Gets the memory and the size, as `malloc` and `realloc` do it; `content` is what the
memory then holds. -/
def takeMemory (f : Faults) (size : Nat) (content : List UInt8) : Action Path Unit := do
  if size ≠ 0 ∧ f.storage then throw (.throws .badAlloc)
  edit fun b => { b with mem := if size = 0 then none else some content, bytes := size }

def init (f : Faults) (size : Nat) : Action Path Unit := do
  dealloc f
  takeMemory f size (allocate f size)
  if f.table ∧ pageCount size ≠ 0 then throw (.throws .badAlloc)
  edit fun b => { b with
    pages := List.replicate (pageCount size) .absent
    dirtyPages := 0 }

def initFile (f : Faults) (size : Nat) (path : Path) (readOnly : Bool) : Action Path Unit := do
  let w ← get
  if f.probe then throw (.throws .filesystemError)
  if (w.disk path).isNone then throwIOError .fileNotFound (some path)
  if f.openIn then throwIOError .fileCantRead (some path)
  init f size
  if f.path then throw (.throws .badAlloc)
  edit fun b => { b with file := some path, inStream := some path }
  if f.fileSize then throw (.throws .filesystemError)
  let w ← get
  edit fun b => { b with fileBytes := ((w.disk path).getD []).length, readOnly := readOnly }

def forgetPage (p : Nat) : Action Path Unit := do
  if ← look (isPage .dirty p) then
    edit fun b => { b with dirtyPages := b.dirtyPages - 1 }

def forgetPages (size : Nat) : Action Path Unit := do
  let b ← buffer
  forRange forgetPage (b.pages.length - pageCount size) (pageCount size)

def resizePages (f : Faults) (count : Nat) : Action Path Unit := do
  let b ← buffer
  if f.table ∧ b.pages.length < count then throw (.throws .badAlloc)
  edit fun b => { b with pages := b.pages.takeD count .absent }

/-- The last page of the old buffer may have been loaded up to its end only. -/
def completePage (f : Faults) (oldBytes : Nat) : Action Path Unit := do
  let b ← buffer
  let page := oldBytes / pageSize
  if oldBytes % pageSize ≠ 0 then
    if !(← look (isPage .absent page)) then
      fill f oldBytes (min ((page + 1) * pageSize) b.bytes)

def resize (f : Faults) (size : Nat) : Action Path Unit := do
  let b ← buffer
  if size ≠ b.bytes then
    let oldBytes := b.bytes
    takeMemory f size (reallocate f (b.mem.getD []) size)
    if size < oldBytes then forgetPages size
    resizePages f (pageCount size)
    if oldBytes < size then completePage f oldBytes

def detach (f : Faults) : Action Path Unit := do
  let b ← buffer
  load f 0 b.bytes
  edit fun b => { b with inStream := none }
  outClose f
  edit fun b => { b with file := none, fileBytes := 0 }

/-- `*this = std::move(other)`; the result is what is left of `other`. -/
def moveFrom (f : Faults) (other : BackedBuffer Path) : Action Path (BackedBuffer Path) := do
  dealloc f
  let b ← buffer
  edit fun _ => other
  return { out := { failed := b.out.failed } }

/-- The public calls.  `write` is `mutableByteView` followed by writes that leave `data` in
the region it returned. -/
inductive Op (Path : Type) where
  | init (size : Nat)
  | initFile (size : Nat) (path : Path) (readOnly : Bool)
  | resize (size : Nat)
  | detach
  | dealloc
  | byteView (offset len : Nat)
  | write (offset : Nat) (data : List UInt8)
  | persist
  | setReadOnly (value : Bool)

def Op.pre (op : Op Path) (b : BackedBuffer Path) : Prop :=
  match op with
  | .byteView offset len => offset + len ≤ b.bytes
  | .write offset data => offset + data.length ≤ b.bytes
  | _ => True

def write (f : Faults) (offset : Nat) (data : List UInt8) : Action Path Unit := do
  mutableByteView f offset data.length
  store offset data

def call (f : Faults) : Op Path → Action Path (List UInt8)
  | .init size => do init f size; return []
  | .initFile size path readOnly => do initFile f size path readOnly; return []
  | .resize size => do resize f size; return []
  | .detach => do detach f; return []
  | .dealloc => do dealloc f; return []
  | .byteView offset len => byteView f offset len
  | .write offset data => do write f offset data; return []
  | .persist => do persist f; return []
  | .setReadOnly value => do edit fun b => { b with readOnly := value }; return []

end Allocating

end BackedBuffer

end Utlib
