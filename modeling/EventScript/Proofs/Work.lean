import EventScript.CommandLine.Run
import EventScript.Proofs.Outcome

namespace EventScript.CommandLine.Work

variable {α β : Type} {x : Work α} {f : α → Work β} {s s' : Session}

abbrev exec (x : Work α) (s : Session) : Except Failure α × Session := x.run.run s

theorem exec_bind_of_ok {a : α} (first : exec x s = (.ok a, s')) : exec (x >>= f) s = exec (f a) s' := by
  rw [exec, ExceptT.run_bind, StateT.run_bind, show x.run.run s = (.ok a, s') from first]
  rfl

theorem exec_bind_of_error {e : Failure} (first : exec x s = (.error e, s')) : exec (x >>= f) s = (.error e, s') := by
  rw [exec, ExceptT.run_bind, StateT.run_bind, show x.run.run s = (.error e, s') from first]
  rfl

theorem exec_report (events : List Event) (s : Session) :
    exec (report events) s = (.ok (), { s with events := s.events ++ events }) := rfl

theorem exec_ofScript (result : Except Error α) (s : Session) :
    exec (ofScript result) s = (result.mapError .script, s) := rfl

theorem exec_readBytes (p : Path) (s : Session) :
    exec (readBytes p) s = ((s.folder.read p).mapError .file, s) := rfl

theorem exec_contains (p : Path) (s : Session) :
    exec (contains p) s = ((s.folder.contains p).mapError .file, s) := rfl

theorem exec_makeFolder (p : Path) (s : Session) : exec (makeFolder p) s =
    ((s.folder.make p).2.mapError .file, { s with folder := (s.folder.make p).1 }) := rfl

theorem exec_get_bind (next : Session → Work α) (s : Session) : exec (get >>= next) s = exec (next s) s := rfl

theorem exec_write_of_ok {p : Path} {bytes : Bytes} {folder : Folder} (written : s.folder.write p bytes = .ok folder) :
    exec (write p bytes) s = (.ok (), { s with folder }) := by
  unfold write
  rw [exec_get_bind, written]
  rfl

theorem exec_write_of_error {p : Path} {bytes : Bytes} {e : FileError} (refused : s.folder.write p bytes = .error e) :
    exec (write p bytes) s = (.error (.file e), s) := by
  unfold write
  rw [exec_get_bind, refused]
  rfl

def IsQuery (x : Work α) : Prop := ∃ g : Folder → Except Failure α, ∀ s, exec x s = (g s.folder, s)

namespace IsQuery

theorem pure (a : α) : IsQuery (Pure.pure a) := ⟨fun _ => .ok a, fun _ => rfl⟩

theorem bind (first : IsQuery x) (next : ∀ a, IsQuery (f a)) : IsQuery (x >>= f) := by
  obtain ⟨g, first⟩ := first
  choose h next using next
  refine ⟨fun folder => g folder >>= fun a => h a folder, fun s => ?_⟩
  dsimp only
  cases result : g s.folder with
  | error e => exact exec_bind_of_error (result ▸ first s)
  | ok a => exact (exec_bind_of_ok (result ▸ first s)).trans (next a s)

theorem ofExcept (result : Except Failure α) : IsQuery (ExceptT.mk (Pure.pure result)) :=
  ⟨fun _ => result, fun _ => rfl⟩

end IsQuery

theorem isQuery_readText (p : Path) : IsQuery (readText p) := by
  refine .bind ⟨fun folder => (folder.read p).mapError .file, exec_readBytes p⟩ fun bytes => ?_
  cases decodeText? bytes with
  | none => exact .ofExcept (.error .encoding)
  | some text => exact .pure text

theorem isQuery_readEntryFile (p : Path) : IsQuery (readEntryFile p) := by
  refine .bind ⟨fun folder => (folder.contains _).mapError .file, exec_contains _⟩ fun present => ?_
  cases present with
  | false => exact .pure none
  | true => exact .bind (isQuery_readText _) fun text => .bind (.ofExcept _) fun saved => .pure (some saved)

end EventScript.CommandLine.Work
