import Velarix.Bytes

/-! The file system the engine runs on. An async method of the source is an `Io`
computation: it returns its result and leaves the world behind, also when it fails. -/
namespace Velarix

/-- `Uuid::new_v4()`. -/
abbrev Uuid := Nat

/-- One path component. The names the engine formats are kept apart by constructor:
`format!("sstable_{}_.db", ms)` is `sstable ms`, and decimal printing is injective. -/
inductive Segment where
  | named (name : String)
  | bucket (id : Uuid)
  | sstable (ms : Nat)
  | index (ms : Nat)
  deriving DecidableEq, Repr

inductive Path where
  | root
  | join (dir : Path) (name : Segment)
  deriving DecidableEq, Repr

/-- The clock reading an SSTable file's name carries. -/
def Path.stamp : Path → Option Nat
  | .join _ (.sstable t) => some t
  | .join _ (.index t) => some t
  | _ => none

@[simp] theorem Path.stamp_sstable (d : Path) (t : Nat) : (d.join (.sstable t)).stamp = some t := rfl

@[simp] theorem Path.stamp_index (d : Path) (t : Nat) : (d.join (.index t)).stamp = some t := rfl

structure Fs where
  dirs : Path → Bool
  files : Path → Option Bytes

namespace Fs

/-- A disk with nothing on it. -/
def empty : Fs := ⟨fun _ => false, fun _ => none⟩

def setFile (fs : Fs) (p : Path) (b : Option Bytes) : Fs :=
  { fs with files := fun q => if q = p then b else fs.files q }

/-- What `write_all` on a handle opened with `append(true)` does to the file. -/
def append (fs : Fs) (p : Path) (b : Bytes) : Fs := fs.setFile p (some ((fs.files p).getD [] ++ b))

def addDir (fs : Fs) (p : Path) : Fs := { fs with dirs := fun q => q = p || fs.dirs q }

/-- What opening with `create(true)` does: an absent file is created empty. -/
def touch (fs : Fs) (p : Path) : Fs := fs.setFile p (some ((fs.files p).getD []))

@[simp] theorem setFile_files (fs : Fs) (p q : Path) (b : Option Bytes) :
    (fs.setFile p b).files q = if q = p then b else fs.files q := rfl

@[simp] theorem setFile_dirs (fs : Fs) (p : Path) (b : Option Bytes) :
    (fs.setFile p b).dirs = fs.dirs := rfl

@[simp] theorem addDir_files (fs : Fs) (p : Path) : (fs.addDir p).files = fs.files := rfl

@[simp] theorem addDir_dirs (fs : Fs) (p q : Path) : (fs.addDir p).dirs q = (q = p || fs.dirs q) := rfl

theorem append_files (fs : Fs) (p q : Path) (b : Bytes) :
    (fs.append p b).files q = if q = p then some ((fs.files p).getD [] ++ b) else fs.files q := rfl

@[simp] theorem append_dirs (fs : Fs) (p : Path) (b : Bytes) : (fs.append p b).dirs = fs.dirs := rfl

theorem touch_files (fs : Fs) (p q : Path) :
    (fs.touch p).files q = if q = p then some ((fs.files p).getD []) else fs.files q := rfl

@[simp] theorem touch_dirs (fs : Fs) (p : Path) : (fs.touch p).dirs = fs.dirs := rfl

theorem setFile_setFile (fs : Fs) (p : Path) (a b : Option Bytes) :
    (fs.setFile p a).setFile p b = fs.setFile p b := by
  simp only [setFile, Fs.mk.injEq, true_and]
  funext q
  split <;> rfl

theorem append_append (fs : Fs) (p : Path) (a b : Bytes) :
    (fs.append p a).append p b = fs.append p (a ++ b) := by
  simp [append, setFile_setFile]

theorem append_nil {fs : Fs} {p : Path} {c : Bytes} (h : fs.files p = some c) : fs.append p [] = fs := by
  simp only [append, setFile, h, Option.getD_some, List.append_nil]
  congr
  funext q
  split <;> simp_all

end Fs

inductive StorageEngineError where
  | unexpectedEOF
  | sstableFileOpenError (path : Path)
  | getFileMetaDataError (path : Path)
  | writeError (path : Path)
  | blockIsFull
  | failedToInsertToBucket (msg : String)
  | biggestKeyIndexError
  | lowestKeyIndexError
  | panic (msg : String)
  deriving DecidableEq, Repr

/-- The disk, and what each coming `write_all` does: `some n` stops it with an error once `n`
bytes of its buffer are written, if the buffer is longer. `none`, or an empty schedule, lets the
write through. -/
structure World where
  fs : Fs
  faults : List (Option Nat)

abbrev Io := EStateM StorageEngineError World

namespace Io

/-- `Path::exists`. -/
def pathExists (p : Path) : Io Bool := fun w => .ok (w.fs.dirs p || (w.fs.files p).isSome) w

/-- `exists() && is_file()`. -/
def fileExists (p : Path) : Io Bool := fun w => .ok (w.fs.files p).isSome w

/-- `create_dir_all`. -/
def createDirAll (p : Path) : Io Unit := fun w => .ok () { w with fs := w.fs.addDir p }

/-- `fs::create_dir(..).expect(..)`, which panics on a path that exists. -/
def createDir (p : Path) (msg : String) : Io Unit := fun w =>
  if w.fs.dirs p || (w.fs.files p).isSome then .error (.panic msg) w
  else .ok () { w with fs := w.fs.addDir p }

/-- `OpenOptions::new().append(true).create(true).open`: an absent file is created empty. -/
def openAppendCreate (p : Path) : Io Unit := fun w => .ok () { w with fs := w.fs.touch p }

/-- `OpenOptions::new().read(true).open`. -/
def openRead (p : Path) : Io Unit := fun w =>
  if (w.fs.files p).isSome then .ok () w else .error (.sstableFileOpenError p) w

/-- Where the next entry of the schedule tears a `write_all` of `len` bytes: `write_all` fails
only before its last byte is written. -/
def tearAt (faults : List (Option Nat)) (len : Nat) : Option Nat :=
  match faults with
  | some n :: _ => if n < len then some n else none
  | _ => none

/-- `write_all` at the end of the file: torn, it leaves the bytes written before the failure. -/
def writeAll (p : Path) (b : Bytes) : Io Unit := fun w =>
  match tearAt w.faults b.length with
  | some n => .error (.writeError p) ⟨w.fs.append p (b.take n), w.faults.tail⟩
  | none => .ok () ⟨w.fs.append p b, w.faults.tail⟩

/-- `metadata().len()`. -/
def metadataLen (p : Path) : Io Nat := fun w =>
  match w.fs.files p with
  | some b => .ok b.length w
  | none => .error (.getFileMetaDataError p) w

/-- The whole contents, as the decode loops see them through successive reads. -/
def readFile (p : Path) : Io Bytes := fun w => .ok ((w.fs.files p).getD []) w

/-- `fs::remove_file`. -/
def removeFile (p : Path) : Io Unit := fun w =>
  if (w.fs.files p).isSome then .ok () { w with fs := w.fs.setFile p none }
  else .error (.sstableFileOpenError p) w

/-- `let _ = x.await`, or an error only logged: the result is dropped, the effects stay. -/
def ignoreResult (x : Io Unit) : Io Unit := fun w =>
  match x w with
  | .ok _ w => .ok () w
  | .error _ w => .ok () w

@[simp] theorem writeAll_ok (p : Path) (b : Bytes) (fs : Fs) :
    writeAll p b ⟨fs, []⟩ = .ok () ⟨fs.append p b, []⟩ := rfl

theorem lt_of_tearAt {faults : List (Option Nat)} {len n : Nat} (h : tearAt faults len = some n) :
    n < len := by
  unfold tearAt at h
  split at h
  · split at h <;> cases h; assumption
  · cases h

/-- The world `x` leaves, whether it succeeds or fails. -/
def after {α : Type} (x : Io α) (w : World) : World :=
  match x w with
  | .ok _ w' => w'
  | .error _ w' => w'

def Keeps {α : Type} (R : World → World → Prop) (x : Io α) : Prop := ∀ w, R w (x.after w)

section Keeps
variable {R : World → World → Prop} {α β : Type}

theorem Keeps.of_ok {x : Io α} (h : Keeps R x) {w w' : World} {a : α} (hx : x w = .ok a w') :
    R w w' := by
  simpa [after, hx] using h w

theorem Keeps.of_error {x : Io α} (h : Keeps R x) {w w' : World} {e : StorageEngineError}
    (hx : x w = .error e w') : R w w' := by
  simpa [after, hx] using h w

theorem keeps_pure (refl : ∀ w, R w w) (a : α) : Keeps R (pure a : Io α) := refl

theorem keeps_bind (trans : ∀ {u v w}, R u v → R v w → R u w) {x : Io α} {f : α → Io β}
    (hx : Keeps R x) (hf : ∀ a, Keeps R (f a)) : Keeps R (x >>= f) := fun w => by
  show R w (match EStateM.bind x f w with | .ok _ w' => w' | .error _ w' => w')
  simp only [EStateM.bind]
  cases h : x w with
  | ok a w' => exact trans (hx.of_ok h) (hf a w')
  | error e w' => exact hx.of_error h

theorem keeps_of_readOnly (refl : ∀ w, R w w) {x : Io α} (h : ∀ w, x.after w = w) : Keeps R x :=
  fun w => by rw [h w]; exact refl w

end Keeps

theorem bind_eq_ok {α β : Type} {x : Io α} {f : α → Io β} {w w'' : World} {b : β}
    (h : (x >>= f) w = .ok b w'') : ∃ a w', x w = .ok a w' ∧ f a w' = .ok b w'' := by
  simp only [bind, EStateM.bind] at h
  cases hx : x w with
  | ok a w' => rw [hx] at h; exact ⟨a, w', rfl, h⟩
  | error e w' => rw [hx] at h; cases h

theorem bind_eq_error {α β : Type} {x : Io α} {f : α → Io β} {w w'' : World}
    {e : StorageEngineError} (h : (x >>= f) w = .error e w'') :
    x w = .error e w'' ∨ ∃ a w', x w = .ok a w' ∧ f a w' = .error e w'' := by
  simp only [bind, EStateM.bind] at h
  cases hx : x w with
  | ok a w' => rw [hx] at h; exact .inr ⟨a, w', rfl, h⟩
  | error e' w' => rw [hx] at h; cases h; exact .inl rfl

theorem pure_eq_ok {α : Type} {a b : α} {w w' : World} (h : (pure a : Io α) w = .ok b w') :
    a = b ∧ w = w' := by
  cases h
  exact ⟨rfl, rfl⟩

end Io
end Velarix
