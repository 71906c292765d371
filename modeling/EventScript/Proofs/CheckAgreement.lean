import EventScript.Proofs.Folders
import EventScript.Proofs.Recoverability
import EventScript.Proofs.Scope
import EventScript.Proofs.TextRoundTrip
import EventScript.Proofs.Work

namespace EventScript

theorem Script.exists_print_iff {s : Script} {data : Bytes} {seeds : List Seed} {target : Option Target} {limit : Nat}
    (disassembled : disassemble data seeds target limit = .ok s) :
    (∃ text, s.print = .ok text) ↔ ∀ entry offset, (some entry, offset) ∈ seeds → entry.isWritable = true := by
  obtain ⟨r, s₀, pins, _, _, _, -, scripts, rfl, -⟩ := disassemble_layout disassembled
  have given : ∀ entry, (∃ e ∈ s₀.entries, e.1 = entry) ↔ ∃ offset, (some entry, offset) ∈ seeds := by
    intro entry
    constructor
    · rintro ⟨e, member, rfl⟩
      obtain ⟨e', declared, same, -⟩ := exists_left_of_mem scripts.entries member
      obtain ⟨offset, inSeeds, -⟩ := mem_declaredEntries.1 declared
      exact ⟨offset, same ▸ inSeeds⟩
    · rintro ⟨offset, inSeeds⟩
      obtain ⟨e, member, same, -⟩ := exists_right_of_mem scripts.entries (mem_declaredEntries.2 ⟨offset, inSeeds, rfl⟩)
      exact ⟨e, member, same⟩
  have items : ∀ item ∈ (s₀.loosen pins).items, item.WellFormed := (disassemble_wellFormed_without disassembled).items
  constructor
  · rintro ⟨text, printed⟩ entry offset inSeeds
    obtain ⟨e, member, rfl⟩ := (given entry).2 ⟨offset, inSeeds⟩
    exact ((print_eq_ok items).1 printed).1 e member
  · intro writable
    refine ⟨_, (print_eq_ok items).2 ⟨fun e member => ?_, rfl⟩⟩
    obtain ⟨offset, inSeeds⟩ := (given e.1).1 ⟨e, member, rfl⟩
    exact writable e.1 offset inSeeds

namespace CommandLine

namespace Work

variable {α β : Type} {x : Work α} {f : α → Work β} {s s' : Session}

def Succeeds (x : Work α) (s : Session) : Prop := ∃ a, (exec x s).1 = .ok a

theorem succeeds_bind {result : Except Failure α} (step : exec x s = (result, s')) :
    Succeeds (x >>= f) s ↔ ∃ a, result = .ok a ∧ Succeeds (f a) s' := by
  unfold Succeeds
  cases result with
  | error e =>
    rw [exec_bind_of_error step]
    simp
  | ok a =>
    rw [exec_bind_of_ok step]
    simp

theorem succeeds_pure (a : α) (s : Session) : Succeeds (pure a) s := ⟨a, rfl⟩

end Work

/-- A table has a row for the file that says it is in order. -/
def Outcome.ReportsOk (o : Outcome) (file : String) : Prop :=
  ∃ t ∈ o.tables, ∃ row ∈ t.rows, row.head? = some file ∧ row.getLast? = some "ok"

namespace Request

open Work

variable {r : Request} {p : Path} {folder : Folder}

def CanWriteKeys (seeds : List Seed) : Prop := ∀ entry offset, (some entry, offset) ∈ seeds → entry.isWritable = true

def seedsFor (r : Request) (folder : Folder) (p : Path) : List Seed :=
  match (exec (r.savedEntries p) ⟨folder, []⟩).1 with
  | .ok saved => (r.sources saved).1
  | .error _ => []

theorem isQuery_savedEntries (r : Request) (p : Path) : IsQuery (r.savedEntries p) := by
  unfold savedEntries
  split
  · exact isQuery_readEntryFile p
  · exact .pure none

theorem succeeds_checkFile {saved : Except Failure (Option EntryFile)}
    (query : ∀ events, exec (r.savedEntries p) ⟨folder, events⟩ = (saved, ⟨folder, events⟩))
    (bytecode : isBytecode p = true) (events : List Event) :
    Succeeds (r.checkFile p) ⟨folder, events⟩ ↔ ∃ data entries, folder.read p = .ok data ∧ saved = .ok entries ∧
      ∃ script, Script.disassemble data (r.sources entries).1 (r.sources entries).2 r.limit = .ok script := by
  unfold checkFile
  rw [if_pos bytecode, succeeds_bind (exec_readBytes ..)]
  simp only [mapError_eq_ok]
  constructor
  · rintro ⟨data, read, rest⟩
    obtain ⟨entries, found, rest⟩ := (succeeds_bind (query _)).1 rest
    obtain ⟨script, disassembled, rest⟩ := (succeeds_bind rfl).1 rest
    exact ⟨data, entries, read, found, script, mapError_eq_ok.1 disassembled⟩
  · rintro ⟨data, entries, read, found, script, disassembled⟩
    refine ⟨data, read, (succeeds_bind (query _)).2 ⟨entries, found, ?_⟩⟩
    refine (succeeds_bind rfl).2 ⟨script, mapError_eq_ok.2 disassembled, ?_⟩
    refine (succeeds_bind rfl).2 ⟨(), mapError_eq_ok.2 (Script.verify_of_disassemble disassembled), ?_⟩
    exact succeeds_pure ..

theorem locate_source {data : Bytes} (bytecode : isBytecode p = true) (read : folder.read p = .ok data) :
    folder.locate ⟨false, [p.stem ++ ".asm"]⟩ = .ok [p.stem ++ ".asm"] := by
  obtain ⟨place, located, -⟩ := Folder.read_eq_ok.1 read
  have suffix : p.suffix.toLower = ".bin" := beq_iff_eq.1 bytecode
  have long : 4 ≤ p.suffix.utf8ByteSize := by
    have four : p.suffix.toList.length = 4 := by
      rw [← List.length_map (f := Char.toLower), ← String.toList_map]
      exact congrArg (·.toList.length) suffix
    have bytes := length_le_utf8ByteSize p.suffix.toList
    rwa [String.ofList_toList, four] at bytes
  have split := p.stem_append_suffix
  have nonempty : p.name ≠ "" := by
    intro empty
    rw [empty] at split
    have size := congrArg String.utf8ByteSize split
    rw [String.utf8ByteSize_append, String.utf8ByteSize_empty] at size
    omega
  obtain ⟨plain, short⟩ := Folder.parts_of_locate located p.name (Path.name_mem_parts nonempty)
  rw [← split] at plain short
  rw [String.utf8ByteSize_append] at short
  refine Folder.locate_name (fun nul => ?_) ?_ fun same => ?_
  · rw [String.toList_append] at plain nul
    rcases List.mem_append.1 nul with inStem | inSuffix
    · exact plain (List.mem_append_left _ inStem)
    · exact absurd inSuffix (by decide)
  · rw [String.utf8ByteSize_append]
    have asm : ".asm".utf8ByteSize = 4 := rfl
    omega
  · have last := congrArg (·.toList.getLast?) same
    simp [Folder.parentPart] at last

theorem succeeds_writeSource {data : Bytes} {seeds : List Seed} {target : Option Target}
    (verify : r.verify = true) (here : r.outFolder = ⟨false, []⟩) (bytecode : isBytecode p = true)
    (free : folder.isFolder [p.stem ++ ".asm"] = false) (read : folder.read p = .ok data) (events : List Event) :
    Succeeds (r.writeSource p data seeds target) ⟨folder, events⟩ ↔
      (∃ script, Script.disassemble data seeds target defaultPasses = .ok script) ∧ CanWriteKeys seeds := by
  unfold writeSource
  simp only [verify, if_true]
  constructor
  · intro done
    obtain ⟨script, disassembled, rest⟩ := (succeeds_bind rfl).1 done
    obtain ⟨_, -, rest⟩ := (succeeds_bind rfl).1 rest
    obtain ⟨text, printed, -⟩ := (succeeds_bind (exec_ofScript ..)).1 rest
    have disassembled := mapError_eq_ok.1 disassembled
    exact ⟨⟨script, disassembled⟩, (Script.exists_print_iff disassembled).1 ⟨text, mapError_eq_ok.1 printed⟩⟩
  · rintro ⟨⟨script, disassembled⟩, keys⟩
    obtain ⟨text, printed⟩ := (Script.exists_print_iff disassembled).2 keys
    have written : folder.write (r.outFolder.child (p.stem ++ ".asm")) (encodeText text) =
        .ok (folder.setFile [p.stem ++ ".asm"] (encodeText text)) := by
      rw [here]
      exact Folder.write_eq_ok.2 ⟨_, locate_source bytecode read, free, rfl⟩
    refine (succeeds_bind rfl).2 ⟨script, mapError_eq_ok.2 disassembled, ?_⟩
    refine (succeeds_bind rfl).2 ⟨(), mapError_eq_ok.2 (Script.verify_of_disassemble disassembled), ?_⟩
    refine (succeeds_bind (exec_ofScript ..)).2 ⟨text, mapError_eq_ok.2 printed, ?_⟩
    exact Iff.mpr (succeeds_bind (exec_write_of_ok written)) ⟨(), rfl, succeeds_pure ..⟩

theorem succeeds_disassembleFile {saved : Except Failure (Option EntryFile)}
    (query : ∀ events, exec (r.savedEntries p) ⟨folder, events⟩ = (saved, ⟨folder, events⟩)) (verify : r.verify = true)
    (here : r.outFolder = ⟨false, []⟩) (bytecode : isBytecode p = true)
    (free : folder.isFolder [p.stem ++ ".asm"] = false) (events : List Event) :
    Succeeds (r.disassembleFile p) ⟨folder, events⟩ ↔ ∃ data entries, folder.read p = .ok data ∧ saved = .ok entries ∧
      (∃ script, Script.disassemble data (r.sources entries).1
        ((r.sources entries).2.or (some (.stage p.stem))) defaultPasses = .ok script) ∧
      CanWriteKeys (r.sources entries).1 := by
  unfold disassembleFile
  have made : folder.make r.outFolder = (folder, .ok ()) := by
    rw [here]
    rfl
  rw [succeeds_bind (exec_report ..), succeeds_bind (exec_makeFolder ..), made]
  constructor
  · rintro ⟨_, -, _, -, rest⟩
    obtain ⟨data, read, rest⟩ := (succeeds_bind (exec_readBytes ..)).1 rest
    obtain ⟨entries, found, rest⟩ := (succeeds_bind (query _)).1 rest
    have read : folder.read p = .ok data := mapError_eq_ok.1 read
    refine ⟨data, entries, read, found, ?_⟩
    cases entries with
    | none => exact (succeeds_writeSource verify here bytecode free read _).1 rest
    | some f =>
      obtain ⟨_, -, rest⟩ := (succeeds_bind (exec_report ..)).1 rest
      exact (succeeds_writeSource verify here bytecode free read _).1 rest
  · rintro ⟨data, entries, read, found, disassembled⟩
    refine ⟨(), rfl, (), rfl, ?_⟩
    refine (succeeds_bind (exec_readBytes ..)).2 ⟨data, mapError_eq_ok.2 read, ?_⟩
    refine (succeeds_bind (query _)).2 ⟨entries, found, ?_⟩
    cases entries with
    | none => exact (succeeds_writeSource verify here bytecode free read _).2 disassembled
    | some f =>
      refine (succeeds_bind (exec_report ..)).2 ⟨(), rfl, ?_⟩
      exact (succeeds_writeSource verify here bytecode free read _).2 disassembled

theorem sources_ambiguous {entries : Option EntryFile} {s s' : Session}
    (found : exec (r.savedEntries p) s = (.ok entries, s')) :
    ((r.sources entries).2.isSome ∨ ∀ index offset, (some (.library index), offset) ∉ (r.sources entries).1) ↔
      (r.target.isSome ∨ ∀ index offset, (some (.library index), offset) ∉ r.seeds) := by
  unfold savedEntries at found
  by_cases none : r.seeds.isEmpty = true
  · have empty := List.isEmpty_iff.1 none
    cases entries <;> simp [sources, empty]
  · rw [if_neg none] at found
    cases found
    simp [sources, none]

theorem finish_status {α : Type} {session : Session} {result : Except Failure α} {events : List Event}
    {tables : List Table} : (finish session [(p, result)] events tables).status = .ok 0 ↔ ∃ a, result = .ok a := by
  cases result with
  | ok a => simp [finish, fatal?, statusOf, Except.toBool]
  | error e => by_cases ends : e.endsRun = true <;> simp [finish, fatal?, statusOf, Except.toBool, ends]

theorem finish_reportsOk {session : Session} {result : Except Failure Summary} {events : List Event} :
    (finish session [(p, result)] events [checkTable [(p, result)]]).ReportsOk p.name ↔ ∃ a, result = .ok a := by
  cases result with
  | ok a => simp [finish, fatal?, Outcome.ReportsOk, checkTable, checkRow]
  | error e => by_cases ends : e.endsRun = true <;> simp [finish, fatal?, Outcome.ReportsOk, checkTable, checkRow, ends]

theorem run_disassemble_status (r : Request) (file : String) (folder : Folder) (action : r.action = .disassemble)
    (files : r.files = [file]) :
    (r.run folder).status = .ok 0 ↔ Succeeds (r.disassembleFile (Path.ofText file)) ⟨folder, []⟩ := by
  rw [run, execute, action, files]
  exact finish_status

theorem run_check_reportsOk (r : Request) (file : String) (folder : Folder) (action : r.action = .check)
    (files : r.files = [file]) : (r.run folder).ReportsOk (Path.ofText file).name ↔
      Succeeds (r.checkFile (Path.ofText file)) ⟨folder, []⟩ := by
  rw [run, execute, action, files]
  exact finish_reportsOk

theorem limit_default (r : Request) (action : Action) (files : List String) :
    ({ r with action, maxPasses := defaultPasses, files } : Request).limit = defaultPasses := rfl

/-- For all options, a file of bytecode can be disassembled with verification exactly if a check with the default
bound on the passes finds it in order, its target is known, and its keys can be written. The target is known if it is
given or no seed is a library function. The bound that is asked for is not regarded. -/
theorem disassemble_iff_check (r : Request) (file : String) (folder : Folder) (here : r.outFolder = ⟨false, []⟩)
    (bytecode : isBytecode (Path.ofText file) = true)
    (free : folder.isFolder [(Path.ofText file).stem ++ ".asm"] = false) :
    (({ r with action := .disassemble, verify := true, files := [file] } : Request).run folder).status = .ok 0 ↔
      (({ r with action := .check, maxPasses := defaultPasses, files := [file] } : Request).run folder).ReportsOk
        (Path.ofText file).name ∧
      (r.target.isSome ∨ ∀ index offset, (some (.library index), offset) ∉ r.seeds) ∧
      CanWriteKeys (r.seedsFor folder (Path.ofText file)) := by
  rw [run_disassemble_status _ file folder rfl rfl, run_check_reportsOk _ file folder rfl rfl]
  obtain ⟨saved, query⟩ := isQuery_savedEntries r (Path.ofText file)
  have found (events : List Event) : exec (r.savedEntries (Path.ofText file)) ⟨folder, events⟩ =
      (saved folder, ⟨folder, events⟩) := query ⟨folder, events⟩
  have seeds {entries : Option EntryFile} (some : saved folder = .ok entries) :
      r.seedsFor folder (Path.ofText file) = (r.sources entries).1 := by
    rw [seedsFor, found, some]
  have checked := succeeds_checkFile (r := { r with action := .check, maxPasses := defaultPasses, files := [file] })
    found bytecode []
  have disassembled := succeeds_disassembleFile
    (r := { r with action := .disassemble, verify := true, files := [file] }) found rfl here bytecode free []
  rw [disassembled, checked, limit_default]
  constructor
  · rintro ⟨data, entries, read, some, disassembled, keys⟩
    obtain ⟨disassembled, chosen⟩ := (Script.exists_disassemble_or_stage ..).1 disassembled
    exact ⟨⟨data, entries, read, some, disassembled⟩, (sources_ambiguous (some ▸ found [])).1 chosen, seeds some ▸ keys⟩
  · rintro ⟨⟨data, entries, read, some, disassembled⟩, chosen, keys⟩
    refine ⟨data, entries, read, some, (Script.exists_disassemble_or_stage ..).2 ⟨disassembled, ?_⟩, seeds some ▸ keys⟩
    exact (sources_ambiguous (some ▸ found [])).2 chosen

def gapJump : Bytes := [3, 23, 44, 1] ++ List.replicate 296 0 ++ [2]

set_option maxRecDepth 4000 in
theorem ofSeeds_gapJump : Recovery.ofSeeds gapJump [(none, 0)] = .ok ⟨gapJump, [(.event, 0)],
    [⟨0, 4, ⟨"goto", [.offset 300 (some .word) false none], none⟩⟩, ⟨300, 1, ⟨"return", [], none⟩⟩]⟩ := by
  have explored : Explore.explore gapJump [0] [] = .ok [⟨300, 1, ⟨"return", [], none⟩⟩,
      ⟨0, 4, ⟨"goto", [.offset 300 (some .word) false none], none⟩⟩] := by
    rw [Explore.explore_visit (by decide +kernel) rfl rfl]
    change Explore.explore gapJump [300] _ = _
    rw [Explore.explore_visit (by decide +kernel) rfl rfl]
    change Explore.explore gapJump [] _ = _
    rw [Explore.explore]
    rfl
  exact Recovery.ofSeeds_eq_ok.2 ⟨_, _, rfl, explored, by simp [List.mergeSort, Seed.kind]⟩

theorem disassemble_gapJump : (Script.disassemble gapJump [(none, 0)] none 1).isOk = false ∧
    ∃ s, Script.disassemble gapJump [(none, 0)] = .ok s := by
  constructor
  · rw [Script.disassemble, ofSeeds_gapJump]
    decide +kernel
  · have done : (Script.disassemble gapJump [(none, 0)]).toOption.isSome = true := by
      rw [Script.disassemble, ofSeeds_gapJump]
      decide +kernel
    obtain ⟨s, found⟩ := Option.isSome_iff_exists.1 done
    exact ⟨s, toOption_eq_some.1 found⟩

def gapFolder : Folder := ⟨[(["x.bin"], gapJump)], []⟩

theorem read_gapFolder : gapFolder.read (Path.ofText "x.bin") = .ok gapJump :=
  Folder.read_eq_ok.2 ⟨["x.bin"], by rfl, by rfl⟩

/-- One pass is asked for. -/
def onePass : Request := { action := .check, seeds := [(none, 0)], maxPasses := 1, files := ["x.bin"] }

theorem canWriteKeys_onePass : CanWriteKeys onePass.seeds := by
  intro entry offset member
  cases List.mem_singleton.1 member

theorem disassemble_iff_check_onePass : onePass.outFolder = ⟨false, []⟩ ∧
    isBytecode (Path.ofText "x.bin") = true ∧ gapFolder.isFolder [(Path.ofText "x.bin").stem ++ ".asm"] = false ∧
    (({ onePass with action := .disassemble, verify := true, files := ["x.bin"] } : Request).run gapFolder).status =
      .ok 0 := by
  have here : onePass.outFolder = ⟨false, []⟩ := by decide +kernel
  have bytecode : isBytecode (Path.ofText "x.bin") = true := by decide +kernel
  have free : gapFolder.isFolder [(Path.ofText "x.bin").stem ++ ".asm"] = false := by decide +kernel
  have agree := disassemble_iff_check onePass "x.bin" gapFolder here bytecode free
  have checked : (({ onePass with action := .check, maxPasses := defaultPasses, files := ["x.bin"] } :
      Request).run gapFolder).ReportsOk (Path.ofText "x.bin").name := by
    refine (run_check_reportsOk _ "x.bin" gapFolder rfl rfl).2 ?_
    exact (succeeds_checkFile (fun _ => rfl) bytecode []).2 ⟨gapJump, none, read_gapFolder, rfl, disassemble_gapJump.2⟩
  exact ⟨here, bytecode, free, agree.2 ⟨checked, .inr (by simp [onePass]), canWriteKeys_onePass⟩⟩

/-- The check keeps to the bound, disassembly does not. -/
theorem check_onePass : ¬ (onePass.run gapFolder).ReportsOk "x.bin" ∧
    (({ onePass with action := .disassemble, verify := true } : Request).run gapFolder).status = .ok 0 := by
  have bytecode : isBytecode (Path.ofText "x.bin") = true := by decide +kernel
  have free : gapFolder.isFolder [(Path.ofText "x.bin").stem ++ ".asm"] = false := by decide +kernel
  constructor
  · intro reported
    have succeeds := (run_check_reportsOk onePass "x.bin" gapFolder rfl rfl).1 reported
    obtain ⟨data, entries, read, none, script, disassembled⟩ :=
      (succeeds_checkFile (fun _ => rfl) bytecode []).1 succeeds
    cases none
    cases read_gapFolder.symm.trans read
    have failed := disassemble_gapJump.1
    rw [show Script.disassemble gapJump [(Option.none, 0)] Option.none 1 = .ok script from disassembled] at failed
    cases failed
  · refine (run_disassemble_status _ "x.bin" gapFolder rfl rfl).2 ?_
    refine (succeeds_disassembleFile (fun _ => rfl) rfl (by decide +kernel) bytecode free []).2 ?_
    refine ⟨gapJump, none, read_gapFolder, rfl, ?_, canWriteKeys_onePass⟩
    exact (Script.exists_disassemble_or_stage ..).2 ⟨disassemble_gapJump.2, .inr (by simp [onePass, sources])⟩

end Request

end CommandLine

end EventScript
