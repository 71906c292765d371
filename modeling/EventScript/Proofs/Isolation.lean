import EventScript.Proofs.Overwriting
import EventScript.Proofs.Work

namespace EventScript.CommandLine

/-- The failures are the same, up to why a file could not be read or written. -/
def Failure.Alike (e e' : Failure) : Prop := e = e' ∨ ∃ a b, e = .file a ∧ e' = .file b

theorem Failure.Alike.refl (e : Failure) : e.Alike e := .inl rfl

theorem Failure.Alike.endsRun {e e' : Failure} (alike : e.Alike e') : e.endsRun = e'.endsRun := by
  rcases alike with rfl | ⟨a, b, rfl, rfl⟩ <;> rfl

def Event.failedFile? : Event → Option String
  | failed _ file _ _ => some file
  | _ => none

def Event.failures (events : List Event) : List String := events.filterMap failedFile?

namespace Event

@[simp] theorem failures_append (events events' : List Event) :
    failures (events ++ events') = failures events ++ failures events' := List.filterMap_append

theorem failures_ofPasses (passes : List Code) : failures (ofPasses passes) = [] := by
  refine List.filterMap_eq_nil_iff.2 fun e member => ?_
  obtain ⟨index, inside, rfl⟩ := List.mem_mapIdx.1 member
  split <;> rfl

theorem failures_ofLayout (s : Script) (limit : Nat) : failures (ofLayout s limit) = [] := by
  unfold ofLayout
  split
  · exact failures_ofPasses _
  · rfl

theorem failures_ofParse (text : String) : failures (ofParse text) = [] := by
  unfold ofParse
  split <;> rfl

theorem failures_ofAssemble (s : Script) (limit : Nat) : failures (ofAssemble s limit) = [] := by
  rw [ofAssemble, failures_append, failures_ofLayout]
  split <;> rfl

theorem failures_ofPins (s : Script) (limit round rounds : Nat) (pins : List Pin) :
    failures (ofPins s limit round rounds pins) = [] := by
  induction rounds generalizing round pins with
  | zero => rfl
  | succ rounds ih =>
    rw [ofPins, failures_append, failures_ofLayout]
    split
    · rfl
    · split
      · rfl
      · exact ih ..

theorem failures_ofDisassemble (data : Bytes) (seeds : List Seed) (target : Option Target) (limit : Nat) :
    failures (ofDisassemble data seeds target limit) = [] := by
  unfold ofDisassemble
  split
  · rfl
  · split
    · rfl
    · exact failures_ofPins ..

end Event

namespace Work

open Folder

variable {α β : Type} {base : Folder} {W A : Place → Prop} {x : Work α} {f : α → Work β}

/-- What work comes to in two sessions `s` and `t`. -/
structure Parallel (W A : Place → Prop) (s t : Session) (u v : Except Failure α × Session) : Prop where
  result : AgreeOn Failure.Alike (· = ·) u.1 v.1
  apart : Over W u.2.folder v.2.folder
  left : Over A u.2.folder s.folder
  right : Over A v.2.folder t.folder
  quiet : Event.failures u.2.events = Event.failures s.events

def Isolated (base : Folder) (W A : Place → Prop) (x : Work α) : Prop :=
  ∀ s t : Session, Over W s.folder t.folder → Over A t.folder base → Parallel W A s t (exec x s) (exec x t)

namespace Isolated

theorem ofExcept (result : Except Failure α) : Isolated base W A (ExceptT.mk (Pure.pure result)) :=
  fun _ _ covers _ => ⟨.refl Failure.Alike.refl result, covers, .refl .., .refl .., rfl⟩

theorem pure (a : α) : Isolated base W A (Pure.pure a : Work α) := ofExcept (.ok a)

theorem bind (first : Isolated base W A x) (next : ∀ a, Isolated base W A (f a)) : Isolated base W A (x >>= f) := by
  intro s t covers within
  obtain ⟨result, apart, left, right, quiet⟩ := first s t covers within
  rcases stepS : exec x s with ⟨resultS, s'⟩
  rcases stepT : exec x t with ⟨resultT, t'⟩
  rw [stepS, stepT] at result apart
  rw [stepS] at left quiet
  rw [stepT] at right
  rcases result.cases with ⟨a, _, rfl, rfl, rfl⟩ | ⟨e, e', rfl, rfl, alike⟩
  · have rest := next a s' t' apart (right.trans within)
    rw [exec_bind_of_ok stepS, exec_bind_of_ok stepT]
    exact ⟨rest.result, rest.apart, rest.left.trans left, rest.right.trans right, rest.quiet.trans quiet⟩
  · rw [exec_bind_of_error stepS, exec_bind_of_error stepT]
    exact ⟨alike, apart, left, right, quiet⟩

end Isolated

theorem isolated_report {events : List Event} (quiet : Event.failures events = []) :
    Isolated base W A (report events) := by
  intro s t covers within
  refine ⟨rfl, covers, .refl .., .refl .., ?_⟩
  rw [exec_report, Event.failures_append, quiet, List.append_nil]

/-- Places of `W` are none that the path leads to. -/
def Apart (base : Folder) (W : Place → Prop) (p : Path) : Prop := ∀ place, base.locate p = .ok place → ¬ W place

theorem alike_file {x y : Except FileError α} (agree : AgreeOn FileError.Alike (· = ·) x y) :
    AgreeOn Failure.Alike (· = ·) (x.mapError .file) (y.mapError .file) := by
  rcases agree.cases with ⟨a, b, rfl, rfl, same⟩ | ⟨e, e', rfl, rfl, -⟩
  · exact same
  · exact .inr ⟨e, e', rfl, rfl⟩

theorem isolated_readBytes {p : Path} (apart : Apart base W p) : Isolated base W A (readBytes p) := by
  intro s t covers within
  refine ⟨alike_file (covers.read_agree fun place located => ?_), covers, .refl .., .refl .., rfl⟩
  exact apart place ((locate_congr within.folders).1 located)

theorem isolated_contains {p : Path} (apart : Apart base W p) : Isolated base W A (contains p) := by
  intro s t covers within
  have same : s.folder.contains p = t.folder.contains p :=
    covers.contains_eq fun place located => apart place ((locate_congr within.folders).1 located)
  rw [exec_contains, exec_contains, same]
  exact ⟨.refl Failure.Alike.refl _, covers, .refl .., .refl .., rfl⟩

theorem isolated_readText {p : Path} (apart : Apart base W p) : Isolated base W A (readText p) := by
  refine .bind (isolated_readBytes apart) fun bytes => ?_
  cases decodeText? bytes with
  | none => exact .ofExcept (.error .encoding)
  | some text => exact .pure text

theorem isolated_write {p : Path} (inside : ∀ place, base.locate p = .ok place → A place) (bytes : Bytes) :
    Isolated base W A (write p bytes) := by
  intro s t covers within
  have outputT place (located : t.folder.locate p = .ok place) : A place :=
    inside place ((locate_congr within.folders).1 located)
  have outputS place (located : s.folder.locate p = .ok place) : A place :=
    outputT place ((locate_congr covers.folders).1 located)
  rcases (covers.write_agree p bytes).cases with ⟨f, g, writtenS, writtenT, apart⟩ | ⟨e, e', refusedS, refusedT, -⟩
  · rw [exec_write_of_ok writtenS, exec_write_of_ok writtenT]
    exact ⟨rfl, apart, over_of_write writtenS outputS, over_of_write writtenT outputT, rfl⟩
  · rw [exec_write_of_error refusedS, exec_write_of_error refusedT]
    exact ⟨.inr ⟨e, e', rfl, rfl⟩, covers, .refl .., .refl .., rfl⟩

theorem isolated_makeFolder {p : Path} (made : (base.make p).1 = base) : Isolated base W A (makeFolder p) := by
  intro s t covers within
  obtain ⟨keptT, -⟩ := within.make_agree made
  obtain ⟨keptS, agree⟩ := covers.make_agree keptT
  rw [exec_makeFolder, exec_makeFolder, keptS, keptT]
  exact ⟨alike_file agree, covers, .refl .., .refl .., rfl⟩

theorem isolated_readEntryFile {p : Path} (apart : Apart base W (p.withName (entryFileName p))) :
    Isolated base W A (readEntryFile p) := by
  refine .bind (isolated_contains apart) fun present => ?_
  cases present with
  | false => exact .pure none
  | true => exact .bind (isolated_readText apart) fun text => .bind (.ofExcept _) fun saved => .pure (some saved)

theorem isolated_parse {text : String} : Isolated base W A (parse text) :=
  .bind (isolated_report (Event.failures_ofParse text)) fun _ => .ofExcept _

theorem isolated_assemble {script : Script} {limit : Nat} : Isolated base W A (assemble script limit) :=
  .bind (isolated_report (Event.failures_ofAssemble script limit)) fun _ => .ofExcept _

theorem isolated_disassemble {data : Bytes} {seeds : List Seed} {target : Option Target} {limit : Nat} :
    Isolated base W A (disassemble data seeds target limit) :=
  .bind (isolated_report (Event.failures_ofDisassemble data seeds target limit)) fun _ => .ofExcept _

theorem isolated_verify {script : Script} {data : Bytes} {limit : Nat} : Isolated base W A (verify script data limit) :=
  .bind (isolated_report (Event.failures_ofAssemble script limit)) fun _ => .ofExcept _

end Work

namespace Request

open Folder Work

variable {r : Request} {p : Path} {base : Folder} {W A : Place → Prop}

def assembledPaths (r : Request) (p : Path) : List Path :=
  [r.outFolder.child (p.stem ++ ".bin"), r.outFolder.child (entryFileName p)]

def disassembledPaths (r : Request) (p : Path) : List Path := [r.outFolder.child (p.stem ++ ".asm")]

def Leads (base : Folder) (paths : List Path) (place : Place) : Prop := ∃ p ∈ paths, base.locate p = .ok place

theorem isolated_assembleFile (made : (base.make r.outFolder).1 = base) (apart : Apart base W p) :
    Isolated base W (Leads base (r.assembledPaths p)) (r.assembleFile p) := by
  have output {q : Path} (member : q ∈ r.assembledPaths p) (bytes : Bytes) :
      Isolated base W (Leads base (r.assembledPaths p)) (write q bytes) :=
    isolated_write (fun place located => ⟨q, member, located⟩) bytes
  refine .bind (isolated_report rfl) fun _ => ?_
  refine .bind (isolated_makeFolder made) fun _ => ?_
  refine .bind (isolated_readText apart) fun text => ?_
  refine .bind isolated_parse fun script => ?_
  refine .bind isolated_assemble fun a => ?_
  refine .bind (output (by simp [assembledPaths]) _) fun _ => ?_
  refine .bind (.ofExcept _) fun text => ?_
  exact .bind (output (by simp [assembledPaths]) _) fun _ => .pure _

theorem isolated_savedEntries (apart : Apart base W (p.withName (entryFileName p))) :
    Isolated base W A (r.savedEntries p) := by
  unfold savedEntries
  split
  · exact isolated_readEntryFile apart
  · exact .pure none

theorem isolated_writeSource {data : Bytes} {seeds : List Seed} {target : Option Target} :
    Isolated base W (Leads base (r.disassembledPaths p)) (r.writeSource p data seeds target) := by
  have written (script : Script) : Isolated base W (Leads base (r.disassembledPaths p)) (do
      let text ← ofScript script.print
      write (r.outFolder.child (p.stem ++ ".asm")) (encodeText text)
      return [r.outFolder.child (p.stem ++ ".asm")]) := by
    refine .bind (.ofExcept _) fun text => .bind (isolated_write (fun place located => ?_) _) fun _ => .pure _
    exact ⟨_, List.mem_singleton.2 rfl, located⟩
  refine .bind isolated_disassemble fun script => ?_
  cases r.verify with
  | false => exact written script
  | true => exact .bind isolated_verify fun _ => written script

theorem isolated_disassembleFile (made : (base.make r.outFolder).1 = base) (apart : Apart base W p)
    (beside : Apart base W (p.withName (entryFileName p))) :
    Isolated base W (Leads base (r.disassembledPaths p)) (r.disassembleFile p) := by
  refine .bind (isolated_report rfl) fun _ => ?_
  refine .bind (isolated_makeFolder made) fun _ => ?_
  refine .bind (isolated_readBytes apart) fun data => ?_
  refine .bind (isolated_savedEntries beside) fun saved => ?_
  cases saved with
  | none => exact isolated_writeSource
  | some f => exact .bind (isolated_report rfl) fun _ => isolated_writeSource

theorem isolated_checkFile (apart : Apart base W p) (beside : Apart base W (p.withName (entryFileName p))) :
    Isolated base W A (r.checkFile p) := by
  unfold checkFile
  split
  · refine .bind (isolated_readBytes apart) fun data => ?_
    refine .bind (isolated_savedEntries beside) fun saved => ?_
    refine .bind isolated_disassemble fun script => ?_
    exact .bind isolated_verify fun _ => .pure _
  · refine .bind (isolated_readText apart) fun text => ?_
    refine .bind isolated_parse fun script => ?_
    exact .bind isolated_assemble fun a => .pure _

end Request

end EventScript.CommandLine
