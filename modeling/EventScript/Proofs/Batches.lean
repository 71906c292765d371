import EventScript.Proofs.Isolation
import Mathlib.Data.List.Nodup

namespace EventScript.CommandLine

open Folder Work

section Files

variable {α : Type} {work : Path → Work α} {base : Folder} {writes : Path → Place → Prop}

/-- What working on the files from `s` on comes to, beside working on each of them alone in `base`. Files were written
before at places of `W`. -/
structure Ran (work : Path → Work α) (base : Folder) (writes : Path → Place → Prop) (W : Place → Prop) (s : Session)
    (paths : List Path) (run : Session × List (Path × Except Failure α)) : Prop where
  results : List.Forall₂ (fun p x => x.1 = p ∧ AgreeOn Failure.Alike (· = ·) x.2 (exec (work p) ⟨base, []⟩).1)
    paths run.2
  quiet : Event.failures run.1.events = Event.failures s.events
  written : Over (fun place => ∃ p ∈ paths, writes p place) run.1.folder s.folder
  apart : paths.Nodup → ∀ p ∈ paths, Over (fun place => W place ∨ ∃ q ∈ paths, q ≠ p ∧ writes q place) run.1.folder
    (exec (work p) ⟨base, []⟩).2.folder

def Ends (x : Except Failure α) : Prop := ∃ e, x = .error e ∧ e.endsRun = true

theorem endsRun_eq_true {x : Except Failure α} : endsRun x = true ↔ Ends x := by
  cases x with
  | ok => simp [endsRun, Ends]
  | error e => simp [endsRun, Ends]

theorem ends_congr {x y : Except Failure α} (agree : AgreeOn Failure.Alike (· = ·) x y) : Ends x ↔ Ends y := by
  unfold Ends
  rcases agree.cases with ⟨a, _, rfl, rfl, rfl⟩ | ⟨e, e', rfl, rfl, alike⟩
  · rfl
  · simp [alike.endsRun]

theorem Ran.cons {W : Place → Prop} {s s' : Session} {p : Path} {paths : List Path} {result : Except Failure α}
    {run : Session × List (Path × Except Failure α)}
    (step : Parallel W (writes p) s ⟨base, []⟩ (result, s') (exec (work p) ⟨base, []⟩))
    (rest : Ran work base writes (fun place => W place ∨ writes p place) s' paths run) :
    Ran work base writes W s (p :: paths) (run.1, (p, result) :: run.2) where
  results := .cons ⟨rfl, step.result⟩ rest.results
  quiet := rest.quiet.trans step.quiet
  written := by
    refine (rest.written.mono ?_).trans (step.left.mono ?_)
    · exact fun place ⟨q, member, here⟩ => ⟨q, List.mem_cons_of_mem p member, here⟩
    · exact fun place here => ⟨p, List.mem_cons_self, here⟩
  apart distinct q member := by
    obtain ⟨fresh, distinct⟩ := List.nodup_cons.1 distinct
    rcases List.mem_cons.1 member with rfl | later
    · refine (rest.written.mono ?_).trans (step.apart.mono fun _ => .inl)
      rintro place ⟨q', member', here⟩
      exact .inr ⟨q', List.mem_cons_of_mem q member', ne_of_mem_of_not_mem member' fresh, here⟩
    · refine (rest.apart distinct q later).mono ?_
      rintro place ((before | here) | ⟨q', member', other, here⟩)
      · exact .inl before
      · exact .inr ⟨p, List.mem_cons_self, (ne_of_mem_of_not_mem later fresh).symm, here⟩
      · exact .inr ⟨q', List.mem_cons_of_mem p member', other, here⟩

theorem Ran.exists_ends {W : Place → Prop} {s : Session} {paths : List Path}
    {run : Session × List (Path × Except Failure α)} (ran : Ran work base writes W s paths run) :
    (∃ x ∈ run.2, Ends x.2) ↔ ∃ p ∈ paths, Ends (exec (work p) ⟨base, []⟩).1 := by
  constructor
  · rintro ⟨x, inResults, ends⟩
    obtain ⟨p, member, -, agree⟩ := exists_left_of_mem ran.results inResults
    exact ⟨p, member, (ends_congr agree).1 ends⟩
  · rintro ⟨p, member, ends⟩
    obtain ⟨x, inResults, -, agree⟩ := exists_right_of_mem ran.results member
    exact ⟨x, inResults, (ends_congr agree).2 ends⟩

/-- The files that are worked on are the first ones: all those that are taken up, and all before which none ends the
run. -/
theorem exists_ran_runFiles {paths : List Path} {s : Session} {W : Place → Prop} (taken : Nat) (ended : Bool)
    (isolated : ∀ p ∈ paths, ∀ W', (∀ place, W' place → W place ∨ ∃ q ∈ paths, writes q place) →
      Isolated base W' (writes p) (work p))
    (covers : Over W s.folder base) :
    ∃ done, done <+: paths ∧ Ran work base writes W s done (runFiles work taken ended s paths) ∧
      ∀ i < paths.length, (i < taken ∨ ended = false ∧ ∀ q ∈ paths.take i, ¬ Ends (exec (work q) ⟨base, []⟩).1) →
        i < done.length := by
  -- The folder differs from the base where earlier files wrote, and `W` grows by what each file writes.
  induction paths generalizing s W taken ended with
  | nil => exact ⟨[], List.prefix_rfl, ⟨.nil, rfl, .refl .., by simp⟩, by simp⟩
  | cons p paths ih =>
    by_cases cancelled : (ended && taken == 0) = true
    · rw [runFiles, if_pos cancelled]
      simp only [Bool.and_eq_true, beq_iff_eq] at cancelled
      exact ⟨[], List.nil_prefix, ⟨.nil, rfl, .refl .., by simp⟩, by simp [cancelled]⟩
    have step := isolated p List.mem_cons_self W (fun _ => .inl) s ⟨base, []⟩ covers (.refl ..)
    rcases worked : exec (work p) s with ⟨result, s'⟩
    rw [worked] at step
    have covers' : Over (fun place => W place ∨ writes p place) s'.folder base :=
      (step.left.mono fun _ => .inr).trans (covers.mono fun _ => .inl)
    obtain ⟨done, isPrefix, rest, enough⟩ := ih (taken - 1) (ended || endsRun result)
      (fun q member W' more => isolated q (List.mem_cons_of_mem p member) W' fun place inside => by
        rcases more place inside with (before | here) | ⟨q', member', later⟩
        · exact .inl before
        · exact .inr ⟨p, List.mem_cons_self, here⟩
        · exact .inr ⟨q', List.mem_cons_of_mem p member', later⟩) covers'
    generalize others : runFiles work (taken - 1) (ended || endsRun result) s' paths = run at rest
    have run : runFiles work taken ended s (p :: paths) = (run.1, (p, result) :: run.2) := by
      rw [runFiles, if_neg cancelled, show (work p).run.run s = (result, s') from worked, ← others]
    rw [run]
    refine ⟨p :: done, List.cons_prefix_cons.2 ⟨rfl, isPrefix⟩, .cons step rest, fun i inside goesOn => ?_⟩
    cases i with
    | zero => simp
    | succ i =>
      rw [List.length_cons] at inside ⊢
      refine Nat.succ_lt_succ (enough i (by omega) ?_)
      rcases goesOn with few | ⟨notEnded, none⟩
      · exact .inl (by omega)
      · rw [List.take_succ_cons, List.forall_mem_cons] at none
        have ends : endsRun result = false := by
          rw [← Bool.not_eq_true, endsRun_eq_true, ends_congr step.result]
          exact none.1
        exact .inr ⟨by rw [notEnded, ends]; rfl, none.2⟩

theorem eq_of_goesOn {paths done : List Path} (isPrefix : done <+: paths)
    (enough : ∀ i < paths.length, (∀ q ∈ paths.take i, ¬ Ends (exec (work q) ⟨base, []⟩).1) → i < done.length)
    (goesOn : ∀ q ∈ done, ¬ Ends (exec (work q) ⟨base, []⟩).1) : done = paths := by
  refine isPrefix.eq_of_length_le ?_
  by_contra fewer
  have more := enough done.length (by omega)
  rw [← List.prefix_iff_eq_take.1 isPrefix] at more
  exact Nat.lt_irrefl _ (more goesOn)

end Files

def Outcome.failed (o : Outcome) : Bool :=
  match o.status with
  | .ok 0 => false
  | _ => true

theorem failures_filter {test : Event → Bool} (keeps : ∀ e, e.level = .error → test e = true) (events : List Event) :
    Event.failures (events.filter test) = Event.failures events := by
  rw [Event.failures, List.filterMap_filter]
  refine List.filterMap_congr fun e _ => ?_
  by_cases kept : test e = true
  · rw [if_pos kept]
  · rw [if_neg kept]
    cases e with
    | failed => exact absurd (keeps _ rfl) kept
    | _ => rfl

/-- The outcome of a batch beside that of each file alone. -/
structure Gathers (writes : Path → Place → Prop) (taken : Nat) (paths : List Path) (alone : Path → Outcome)
    (o : Outcome) : Prop where
  ends : (∃ e, o.status = .error e) ↔ ∃ p ∈ paths, ∃ e, (alone p).status = .error e
  status : (∀ p ∈ paths, ∀ e, (alone p).status ≠ .error e) →
    o.status = .ok (if paths.any fun p => (alone p).failed then 1 else 0)
  reports : (∀ p ∈ paths, ∀ e, (alone p).status ≠ .error e) →
    Event.failures o.events = (paths.filter fun p => (alone p).failed).map Path.name
  silent : ∀ e, o.status = .error e → e.endsRun = true ∧ Event.failures o.events = []
  folder : ∀ i p, paths[i]? = some p → (i < taken ∨ ∀ q ∈ paths.take i, ∀ e, (alone q).status ≠ .error e) →
    Over (fun place => ∃ q ∈ paths, q ≠ p ∧ writes q place) o.folder (alone p).folder

section Finish

variable {α : Type} {work : Path → Work α} {say : Folder → List (Path × Except Failure α) → List Event}
  {tables : List (Path × Except Failure α) → List Table} {folder : Folder} {writes : Path → Place → Prop}
  {paths : List Path} {results : List (Path × Except Failure α)} {x y : Except Failure α} {taken : Nat}

def failedPaths (results : List (Path × Except Failure α)) : List Path :=
  (results.filter fun x => !x.2.toBool).map Prod.fst

def Names (say : Folder → List (Path × Except Failure α) → List Event) : Prop :=
  ∀ folder results, Event.failures (say folder results) = (failedPaths results).map Path.name

theorem names_writtenEvents (activity : String) : Names (writtenEvents activity) := by
  intro folder results
  induction results with
  | nil => rfl
  | cons x results ih =>
    rw [writtenEvents, List.flatMap_cons, Event.failures_append]
    obtain ⟨p, e | written⟩ := x
    · exact congrArg (p.name :: ·) ih
    · have quiet : Event.failures (written.map .wrote) = [] := by simp [Event.failures, Event.failedFile?]
      rw [quiet]
      exact ih

theorem names_checkEvents : Names checkEvents := by
  intro folder results
  induction results with
  | nil => rfl
  | cons x results ih =>
    obtain ⟨p, e | summary⟩ := x
    · exact congrArg (p.name :: ·) ih
    · exact ih

theorem toBool_congr (agree : AgreeOn Failure.Alike (· = ·) x y) : x.toBool = y.toBool := by
  rcases agree.cases with ⟨a, _, rfl, rfl, rfl⟩ | ⟨e, e', rfl, rfl, -⟩ <;> rfl

theorem fatal?_eq_none : fatal? results = none ↔ ∀ x ∈ results, ¬ Ends x.2 := by
  rw [fatal?, List.findSome?_eq_none_iff]
  refine forall₂_congr fun x _ => ?_
  obtain ⟨p, e | a⟩ := x
  · simp [Ends]
  · simp [Ends]

theorem endsRun_of_fatal? {e : Failure} (fatal : fatal? results = some e) : e.endsRun = true := by
  obtain ⟨x, -, found⟩ := List.exists_of_findSome?_eq_some fatal
  obtain ⟨p, e' | a⟩ := x
  · simp only [Option.ite_none_right_eq_some, Option.some.injEq] at found
    exact found.2 ▸ found.1
  · cases found

variable (session : Session) (events : List Event) (said : List Table)

theorem finish_of_ends (ends : ∃ x ∈ results, Ends x.2) : ∃ e, e.endsRun = true ∧
    Request.finish session results events said =
      { status := .error e, events := session.events, folder := session.folder } := by
  unfold Request.finish
  cases fatal : fatal? results with
  | none =>
    obtain ⟨x, member, ends⟩ := ends
    exact absurd ends (fatal?_eq_none.1 fatal x member)
  | some e => exact ⟨e, endsRun_of_fatal? fatal, rfl⟩

theorem finish_of_goes_on (goesOn : ∀ x ∈ results, ¬ Ends x.2) : Request.finish session results events said =
    { status := .ok (statusOf results), events := session.events ++ events, tables := said,
      folder := session.folder } := by
  rw [Request.finish, fatal?_eq_none.2 goesOn]

theorem batch_single (p : Path) : let o := Request.batch work say tables folder taken [p]
    let worked := exec (work p) ⟨folder, []⟩
    ((∃ e, o.status = .error e) ↔ Ends worked.1) ∧ o.failed = !worked.1.toBool ∧ o.folder = worked.2.folder := by
  intro o worked
  have single : o = Request.finish worked.2 [(p, worked.1)] (say worked.2.folder [(p, worked.1)])
    (tables [(p, worked.1)]) := rfl
  rw [single]
  by_cases ends : Ends worked.1
  · obtain ⟨e, -, finished⟩ := finish_of_ends worked.2 (say worked.2.folder [(p, worked.1)]) (tables [(p, worked.1)])
      ⟨(p, worked.1), List.mem_singleton.2 rfl, ends⟩
    have fails : worked.1.toBool = false := by
      obtain ⟨e', failed, -⟩ := ends
      rw [failed]
      rfl
    rw [finished, fails]
    exact ⟨⟨fun _ => ends, fun _ => ⟨e, rfl⟩⟩, rfl, rfl⟩
  · rw [finish_of_goes_on _ _ _ (by simpa using ends)]
    refine ⟨⟨fun ⟨e, failed⟩ => (nomatch failed), fun h => absurd h ends⟩, ?_, rfl⟩
    cases result : worked.1.toBool <;> simp [Outcome.failed, statusOf, result]

theorem failed_of_marks {failed : Path → Bool}
    (marks : List.Forall₂ (fun p (x : Path × Except Failure α) => x.1 = p ∧ x.2.toBool = !failed p) paths results) :
    failedPaths results = paths.filter failed ∧ statusOf results = if paths.any failed then 1 else 0 := by
  have anyFailed : failedPaths results = paths.filter failed ∧
      (results.any fun x => !x.2.toBool) = paths.any failed := by
    induction marks with
    | nil => exact ⟨rfl, rfl⟩
    | @cons p x paths results head _ ih =>
      obtain ⟨rfl, mark⟩ := head
      obtain ⟨paths', any'⟩ := ih
      unfold failedPaths at paths' ⊢
      cases fails : failed x.1 <;> rw [fails] at mark <;> simp [mark, fails, paths', any']
  exact ⟨anyFailed.1, by rw [statusOf, anyFailed.2]⟩

theorem exists_ran (base : Folder) (taken : Nat) (prepared : ∀ p ∈ paths, ∀ events,
      exec (work p) ⟨folder, events⟩ = exec (work p) ⟨base, events⟩)
    (isolated : ∀ p ∈ paths, ∀ W, (∀ place, W place → ∃ q ∈ paths, writes q place) →
      Isolated base W (writes p) (work p)) :
    ∃ s done, s.events = [] ∧ done <+: paths ∧
      Ran work base writes (fun _ => False) s done (runFiles work taken false ⟨folder, []⟩ paths) ∧
      ∀ i < paths.length, (i < taken ∨ ∀ q ∈ paths.take i, ¬ Ends (exec (work q) ⟨base, []⟩).1) → i < done.length := by
  cases paths with
  | nil => exact ⟨⟨folder, []⟩, [], rfl, List.prefix_rfl, ⟨.nil, rfl, .refl .., by simp⟩, by simp⟩
  | cons p paths =>
    have same : runFiles work taken false ⟨folder, []⟩ (p :: paths) =
        runFiles work taken false ⟨base, []⟩ (p :: paths) := by
      simp only [runFiles, Bool.false_and, Bool.false_eq_true, if_false,
        show (work p).run.run ⟨folder, []⟩ = (work p).run.run ⟨base, []⟩ from prepared p List.mem_cons_self []]
    rw [same]
    obtain ⟨done, isPrefix, ran, enough⟩ := exists_ran_runFiles (s := ⟨base, []⟩) taken false
      (fun q member W more => isolated q member W fun place inside => (more place inside).elim False.elim id) (.refl ..)
    exact ⟨⟨base, []⟩, done, rfl, isPrefix, ran,
      fun i inside goesOn => enough i inside (goesOn.imp_right fun none => ⟨rfl, none⟩)⟩

theorem gathers_batch (base : Folder) (names : Names say) (prepared : ∀ p ∈ paths, ∀ events,
      exec (work p) ⟨folder, events⟩ = exec (work p) ⟨base, events⟩)
    (isolated : ∀ p ∈ paths, ∀ W, (∀ place, W place → ∃ q ∈ paths, writes q place) →
      Isolated base W (writes p) (work p)) (distinct : paths.Nodup) :
    Gathers writes taken paths (fun p => Request.batch work say tables folder 1 [p])
      (Request.batch work say tables folder taken paths) := by
  obtain ⟨s, done, fresh, isPrefix, ran, enough⟩ := exists_ran base taken prepared isolated
  have inPaths := isPrefix.subset
  let alone := fun p => Request.batch work say tables folder 1 [p]
  have single (p : Path) (member : p ∈ paths) : ((∃ e, (alone p).status = .error e) ↔
      Ends (exec (work p) ⟨base, []⟩).1) ∧ (alone p).failed = !(exec (work p) ⟨base, []⟩).1.toBool ∧
        (alone p).folder = (exec (work p) ⟨base, []⟩).2.folder := prepared p member [] ▸ batch_single p
  have goesOn {ps : List Path} (inside : ps ⊆ paths) : (∀ q ∈ ps, ∀ e, (alone q).status ≠ .error e) ↔
      ∀ q ∈ ps, ¬ Ends (exec (work q) ⟨base, []⟩).1 :=
    forall₂_congr fun q member => by rw [← (single q (inside member)).1, not_exists]
  rw [Request.batch]
  generalize runFiles work taken false ⟨folder, []⟩ paths = run at ran ⊢
  dsimp only
  have quiet : Event.failures run.1.events = [] := by rw [ran.quiet, fresh]; rfl
  have ended := ran.exists_ends
  have folders : ∀ i p, paths[i]? = some p → (i < taken ∨ ∀ q ∈ paths.take i, ∀ e, (alone q).status ≠ .error e) →
      Over (fun place => ∃ q ∈ paths, q ≠ p ∧ writes q place) run.1.folder (alone p).folder := by
    intro i p here reached
    rw [goesOn (List.take_subset ..)] at reached
    obtain ⟨inside, -⟩ := List.getElem?_eq_some_iff.1 here
    have member : p ∈ done := by
      obtain ⟨later, split⟩ := isPrefix
      rw [← split, List.getElem?_append_left (enough i inside reached)] at here
      exact List.mem_of_getElem? here
    rw [(single p (inPaths member)).2.2]
    refine (ran.apart (isPrefix.sublist.nodup distinct) p member).mono ?_
    rintro place (false | ⟨q, inDone, other, here⟩)
    · exact false.elim
    · exact ⟨q, inPaths inDone, other, here⟩
  by_cases ends : ∃ x ∈ run.2, Ends x.2
  · obtain ⟨e, isFatal, finished⟩ := finish_of_ends run.1 (say run.1.folder run.2) (tables run.2) ends
    rw [finished]
    obtain ⟨p, member, ended⟩ := ended.1 ends
    obtain ⟨e', error⟩ := (single p (inPaths member)).1.2 ended
    have notFine (fine : ∀ q ∈ paths, ∀ e, (alone q).status ≠ .error e) : False := fine p (inPaths member) e' error
    exact ⟨⟨fun _ => ⟨p, inPaths member, e', error⟩, fun _ => ⟨e, rfl⟩⟩, fun fine => (notFine fine).elim,
      fun fine => (notFine fine).elim, fun _ same => ⟨Except.error.inj same ▸ isFatal, quiet⟩, folders⟩
  · obtain rfl : done = paths := eq_of_goesOn isPrefix (fun i inside none => enough i inside (.inr none))
      fun q member ends' => ends (ended.2 ⟨q, member, ends'⟩)
    have marks : List.Forall₂ (fun p (x : Path × Except Failure α) => x.1 = p ∧ x.2.toBool = !(alone p).failed)
        done run.2 := by
      refine ((List.forall₂_and_left ..).2 ⟨single, ran.results⟩).imp ?_
      rintro p x ⟨⟨-, failed, -⟩, same, agree⟩
      exact ⟨same, by rw [failed, Bool.not_not, toBool_congr agree]⟩
    obtain ⟨failed, status⟩ := failed_of_marks marks
    rw [finish_of_goes_on run.1 (say run.1.folder run.2) (tables run.2) fun x member end' => ends ⟨x, member, end'⟩]
    refine ⟨⟨fun ⟨e, error⟩ => (nomatch error), fun ⟨p, member, error⟩ => ?_⟩,
      fun _ => congrArg Except.ok status, fun _ => ?_, fun e error => (nomatch error), folders⟩
    · exact absurd (ended.2 ⟨p, member, (single p member).1.1 error⟩) ends
    · rw [Event.failures_append, quiet, List.nil_append, names, failed]

end Finish

namespace Request

variable {r : Request} {folder : Folder} {p q : Path} {place : Place}

def suffixes (r : Request) : List String :=
  match r.action with
  | .assemble => [".bin", ".entries.json"]
  | .disassemble => [".asm"]
  | _ => []

def outputs (r : Request) (p : Path) : List Path := r.suffixes.map fun suffix => r.outFolder.child (p.stem ++ suffix)

/-- The folder after that for the outputs was made, if there are any. -/
def prepared (r : Request) (folder : Folder) : Folder :=
  match r.action with
  | .assemble | .disassemble => (folder.make r.outFolder).1
  | _ => folder

/-- The places that work on the file may write at. -/
def Writes (r : Request) (folder : Folder) (p : Path) : Place → Prop := Leads (r.prepared folder) (r.outputs p)

def executeAll (r : Request) (folder : Folder) (taken : Nat) (paths : List Path) : Outcome :=
  match r.action with
  | .assemble => batch r.assembleFile (writtenEvents "assembling") (fun _ => []) folder taken paths
  | .disassemble => batch r.disassembleFile (writtenEvents "disassembling") (fun _ => []) folder taken paths
  | .check => batch r.checkFile checkEvents (fun results => [checkTable results]) folder taken paths
  | .opcodes => { status := .ok 0, tables := [commandTable r.verbose r.category], folder }

theorem execute_eq (r : Request) (folder : Folder) (taken : Nat) :
    r.execute folder taken = r.executeAll folder taken (r.files.map Path.ofText) := rfl

theorem suffixes_subset (r : Request) : r.suffixes ⊆ [".bin", ".entries.json", ".asm"] := by
  unfold suffixes
  cases r.action <;> simp

theorem eq_of_append_suffix {a b x y : String} (isSuffix : a ∈ [".bin", ".entries.json", ".asm"])
    (isSuffix' : b ∈ [".bin", ".entries.json", ".asm"]) (same : x ++ a = y ++ b) : x = y ∧ a = b := by
  -- The last two characters tell the suffixes apart.
  have ends := congrArg (fun name => name.toList.reverse.take 2) same
  have equal : a = b := by
    simp only [List.mem_cons, List.not_mem_nil, or_false] at isSuffix isSuffix'
    rcases isSuffix with rfl | rfl | rfl <;> rcases isSuffix' with rfl | rfl | rfl <;>
      first | rfl | simp at ends
  subst equal
  exact ⟨by simpa [String.ext_iff] using same, rfl⟩

theorem ne_parentPart {a x : String} (isSuffix : a ∈ [".bin", ".entries.json", ".asm"]) : x ++ a ≠ parentPart := by
  intro same
  have ends := congrArg (fun name => name.toList.length) same
  simp only [List.mem_cons, List.not_mem_nil, or_false] at isSuffix
  rcases isSuffix with rfl | rfl | rfl <;> simp [parentPart] at ends

theorem exists_suffix (writes : r.Writes folder p place) :
    ∃ suffix ∈ r.suffixes, place.getLast? = some (p.stem ++ suffix) := by
  obtain ⟨_, isOutput, located⟩ := writes
  obtain ⟨suffix, inSuffixes, rfl⟩ := List.mem_map.1 isOutput
  exact ⟨suffix, inSuffixes, getLast?_of_locate located (ne_parentPart (r.suffixes_subset inSuffixes))⟩

theorem stem_eq_of_writes (first : r.Writes folder p place) (second : r.Writes folder q place) : p.stem = q.stem := by
  obtain ⟨a, inSuffixes, last⟩ := exists_suffix first
  obtain ⟨b, inSuffixes', last'⟩ := exists_suffix second
  have same := Option.some.inj (last.symm.trans last')
  exact (eq_of_append_suffix (r.suffixes_subset inSuffixes) (r.suffixes_subset inSuffixes') same).1

theorem exec_bind_congr {α β : Type} {x : Work α} {f : α → Work β} {s t : Session} (same : exec x s = exec x t) :
    exec (x >>= f) s = exec (x >>= f) t := by
  rcases first : exec x s with ⟨e | a, s'⟩
  · rw [exec_bind_of_error first, exec_bind_of_error (same ▸ first)]
  · rw [exec_bind_of_ok first, exec_bind_of_ok (same ▸ first)]

theorem exec_made {α : Type} {f : Unit → Work α} (news : List Event) (out : Path) (events : List Event) :
    exec (report news >>= fun _ => makeFolder out >>= f) ⟨folder, events⟩ =
      exec (report news >>= fun _ => makeFolder out >>= f) ⟨(folder.make out).1, events⟩ := by
  rw [exec_bind_of_ok (exec_report news ⟨folder, events⟩), exec_bind_of_ok (exec_report news ⟨_, events⟩)]
  apply exec_bind_congr
  rw [exec_makeFolder, exec_makeFolder]
  simp only [make_make]

theorem apart_beside (action : r.action = .disassemble ∨ r.action = .check) {W : Place → Prop} {paths : List Path}
    (written : ∀ place, W place → ∃ q ∈ paths, r.Writes folder q place) :
    Apart (r.prepared folder) W (p.withName (entryFileName p)) := by
  intro place located inside
  obtain ⟨q, -, writes⟩ := written place inside
  obtain ⟨suffix, inSuffixes, last⟩ := exists_suffix writes
  have isSuffix := r.suffixes_subset inSuffixes
  have last' := getLast?_of_locate located (ne_parentPart (by simp))
  have same := (eq_of_append_suffix isSuffix (by simp) (Option.some.inj (last.symm.trans last'))).2
  rcases action with action | action <;> simp [suffixes, action, same] at inSuffixes

theorem gathers_executeAll (folder : Folder) (taken : Nat) (paths : List Path) (takes : r.action.takesFiles = true)
    (distinct : (paths.map Path.stem).Nodup)
    (disjoint : ∀ p ∈ paths, ∀ q ∈ paths, ∀ place,
      (r.prepared folder).locate p = .ok place → ¬ r.Writes folder q place) :
    Gathers (r.Writes folder) taken paths (fun p => r.executeAll folder 1 [p]) (r.executeAll folder taken paths) := by
  have nodup : paths.Nodup := .of_map Path.stem distinct
  have apart : ∀ p ∈ paths, ∀ W, (∀ place, W place → ∃ q ∈ paths, r.Writes folder q place) →
      Apart (r.prepared folder) W p := by
    intro p member W written place located inside
    obtain ⟨q, member', writes⟩ := written place inside
    exact disjoint p member q member' place located writes
  cases action : r.action with
  | assemble =>
    have whole (n : Nat) (ps : List Path) : r.executeAll folder n ps =
        batch r.assembleFile (writtenEvents "assembling") (fun _ => []) folder n ps := by rw [executeAll, action]
    have base : r.prepared folder = (folder.make r.outFolder).1 := by rw [prepared, action]
    have outputs (p : Path) : r.outputs p = r.assembledPaths p := by rw [Request.outputs, suffixes, action]; rfl
    simp only [whole]
    refine gathers_batch (r.prepared folder) (names_writtenEvents "assembling") (fun p _ events => ?_)
      (fun p member W written => ?_) nodup
    · exact base ▸ exec_made ..
    · rw [Writes, outputs]
      exact isolated_assembleFile (by rw [base, make_make]) (apart p member W written)
  | disassemble =>
    have whole (n : Nat) (ps : List Path) : r.executeAll folder n ps =
        batch r.disassembleFile (writtenEvents "disassembling") (fun _ => []) folder n ps := by rw [executeAll, action]
    have base : r.prepared folder = (folder.make r.outFolder).1 := by rw [prepared, action]
    have outputs (p : Path) : r.outputs p = r.disassembledPaths p := by rw [Request.outputs, suffixes, action]; rfl
    simp only [whole]
    refine gathers_batch (r.prepared folder) (names_writtenEvents "disassembling") (fun p _ events => ?_)
      (fun p member W written => ?_) nodup
    · exact base ▸ exec_made ..
    · rw [Writes, outputs]
      exact isolated_disassembleFile (by rw [base, make_make]) (apart p member W written)
        (apart_beside (.inl action) written)
  | check =>
    have whole (n : Nat) (ps : List Path) : r.executeAll folder n ps =
        batch r.checkFile checkEvents (fun results => [checkTable results]) folder n ps := by rw [executeAll, action]
    have base : r.prepared folder = folder := by rw [prepared, action]
    simp only [whole]
    refine gathers_batch (r.prepared folder) names_checkEvents (fun p _ events => ?_)
      (fun p member W written => ?_) nodup
    · rw [base]
    · exact isolated_checkFile (apart p member W written) (apart_beside (.inr action) written)
  | opcodes =>
    rw [action] at takes
    cases takes

theorem failures_run (r : Request) (folder : Folder) (taken : Nat) :
    Event.failures (r.run folder taken).events = Event.failures (r.execute folder taken).events :=
  failures_filter (fun e isError => by simp [isError]) _

/-- Files are worked on as if each were alone, apart from failures that end the run. These end it exactly if they do so
alone, and then no failure is reported. Otherwise the status tells whether a file fails alone, and each of those that do
is reported once. The outputs of a file are what they are if it is alone, unless it comes after one that ends the run
and was not taken up before that. -/
theorem run_files (folder : Folder) (taken : Nat) {arguments : List String} (parsed : parse arguments = .ok r)
    (takes : r.action.takesFiles = true)
    (stems : (r.files.map fun file => (Path.ofText file).stem).Nodup)
    (disjoint : ∀ file ∈ r.files, ∀ other ∈ r.files, ∀ place,
      (r.prepared folder).locate (Path.ofText file) = .ok place → ¬ r.Writes folder (Path.ofText other) place) :
    let alone := fun file => Request.run { r with files := [file] } folder
    let o := CommandLine.run arguments folder taken
    ((∃ e, o.status = .error e) ↔ ∃ file ∈ r.files, ∃ e, (alone file).status = .error e) ∧
    (∀ e, o.status = .error e → e.endsRun = true ∧ Event.failures o.events = []) ∧
    ((∀ file ∈ r.files, ∀ e, (alone file).status ≠ .error e) →
      o.status = .ok (if r.files.any fun file => (alone file).failed then 1 else 0) ∧
      Event.failures o.events =
        (r.files.filter fun file => (alone file).failed).map fun file => (Path.ofText file).name) ∧
    ∀ i file, r.files[i]? = some file →
      (i < taken ∨ ∀ other ∈ r.files.take i, ∀ e, (alone other).status ≠ .error e) →
      ∀ place, r.Writes folder (Path.ofText file) place ∨
        (∀ other ∈ r.files, ¬ r.Writes folder (Path.ofText other) place) →
          o.folder.nodeAt place = (alone file).folder.nodeAt place := by
  intro alone o
  have whole : o = r.run folder taken := by
    show CommandLine.run arguments folder taken = _
    rw [CommandLine.run, parsed]
  have gathers := gathers_executeAll folder taken (r.files.map Path.ofText) takes (by rwa [List.map_map])
    (by simpa using disjoint)
  have status : o.status = (r.executeAll folder taken (r.files.map Path.ofText)).status := by rw [whole]; rfl
  have reports : Event.failures o.events =
      Event.failures (r.executeAll folder taken (r.files.map Path.ofText)).events := by
    rw [whole, failures_run, execute_eq]
  have left : o.folder = (r.executeAll folder taken (r.files.map Path.ofText)).folder := by rw [whole]; rfl
  rw [status, reports, left]
  refine ⟨gathers.ends.trans ?_, gathers.silent, fun fine => ?_, fun i file here reached place apart => ?_⟩
  · constructor
    · rintro ⟨_, isPath, ends⟩
      obtain ⟨file, member, rfl⟩ := List.mem_map.1 isPath
      exact ⟨file, member, ends⟩
    · rintro ⟨file, member, ends⟩
      exact ⟨_, List.mem_map_of_mem member, ends⟩
  · have fine' : ∀ p ∈ r.files.map Path.ofText, ∀ e, (r.executeAll folder 1 [p]).status ≠ .error e :=
      List.forall_mem_map.2 fine
    rw [gathers.status fine', gathers.reports fine', List.any_map, List.filter_map, List.map_map]
    exact ⟨rfl, rfl⟩
  · have reached' : i < taken ∨ ∀ p ∈ (r.files.map Path.ofText).take i, ∀ e,
        (r.executeAll folder 1 [p]).status ≠ .error e := by
      rw [← List.map_take, List.forall_mem_map]
      exact reached
    have isPath : (r.files.map Path.ofText)[i]? = some (Path.ofText file) := by rw [List.getElem?_map, here]; rfl
    refine (gathers.folder i _ isPath reached').nodes place ?_
    rintro ⟨_, isPath, different, writes⟩
    obtain ⟨other, member', rfl⟩ := List.mem_map.1 isPath
    rcases apart with own | outside
    · have same := List.inj_on_of_nodup_map stems member' (List.mem_of_getElem? here) (stem_eq_of_writes writes own)
      exact different (congrArg Path.ofText same)
    · exact outside other member' writes

theorem disjoint_of_names (names : ∀ file ∈ r.files,
      (Path.ofText file).name ≠ "" ∧ (Path.ofText file).name ≠ parentPart ∧
        ∀ other ∈ r.files, ∀ suffix ∈ r.suffixes, (Path.ofText file).name ≠ (Path.ofText other).stem ++ suffix) :
    ∀ file ∈ r.files, ∀ other ∈ r.files, ∀ place,
      (r.prepared folder).locate (Path.ofText file) = .ok place → ¬ r.Writes folder (Path.ofText other) place := by
  intro file member other member' place located writes
  obtain ⟨suffix, inSuffixes, last⟩ := exists_suffix writes
  obtain ⟨named, proper, different⟩ := names file member
  obtain ⟨parts, split⟩ : ∃ parts, (Path.ofText file).parts = parts ++ [(Path.ofText file).name] := by
    unfold Path.name at named ⊢
    cases ends : (Path.ofText file).parts.getLast? with
    | none => exact absurd (by rw [ends]; rfl) named
    | some part => exact List.getLast?_eq_some_iff.1 ends
  have located' : (r.prepared folder).locate ⟨(Path.ofText file).isAbsolute, parts ++ [(Path.ofText file).name]⟩ =
    .ok place := split ▸ located
  have last' := getLast?_of_locate located' proper
  exact different other member' suffix inSuffixes (Option.some.inj (last'.symm.trans last))

def sourceFolder : Folder := .ofFiles [(Path.ofText "a.asm", encodeText ".globals\nmain:\n\tfoo\n"),
  (Path.ofText "b.asm", encodeText ".globals\nmain:\n\treturn\n")]

/-- The second source is assembled although the first one is not, and although a single file is taken up at a time. -/
theorem run_files_sources : ∃ r, parse ["assemble", "-o", "out", "a.asm", "b.asm"] = .ok r ∧
    (r.files.map fun file => (Path.ofText file).stem).Nodup ∧
    let o := CommandLine.run ["assemble", "-o", "out", "a.asm", "b.asm"] sourceFolder 1
    o.status = .ok 1 ∧ Event.failures o.events = ["a.asm"] ∧ o.folder.nodeAt ["out", "b.bin"] = .file [2] := by
  let r : Request := { action := .assemble, outdir := "out", files := ["a.asm", "b.asm"] }
  have parsed : parse ["assemble", "-o", "out", "a.asm", "b.asm"] = .ok r :=
    toOption_eq_some.1 (by decide +kernel)
  have stems : (r.files.map fun file => (Path.ofText file).stem).Nodup := by decide +kernel
  obtain ⟨-, -, fine, files⟩ := run_files sourceFolder 1 parsed rfl stems (disjoint_of_names (by decide +kernel))
  let alone := fun file => Request.run { r with files := [file] } sourceFolder
  have returned : ∀ file ∈ r.files, (alone file).status.toBool = true := by decide +kernel
  have returns : ∀ file ∈ r.files, ∀ e, (alone file).status ≠ .error e := by
    intro file member e error
    have := returned file member
    rw [error] at this
    cases this
  have first : (alone "a.asm").failed = true := by decide +kernel
  have second : (alone "b.asm").failed = false := by decide +kernel
  have writes : r.Writes sourceFolder (Path.ofText "b.asm") ["out", "b.bin"] :=
    ⟨r.outFolder.child "b.bin", by decide +kernel, toOption_eq_some.1 (by decide +kernel)⟩
  have made : (alone "b.asm").folder.nodeAt ["out", "b.bin"] = .file [2] := by
    have read : ((alone "b.asm").folder.read (r.outFolder.child "b.bin")).toOption = some [2] := by decide +kernel
    have located : ((alone "b.asm").folder.locate (r.outFolder.child "b.bin")).toOption = some ["out", "b.bin"] := by
      decide +kernel
    obtain ⟨place, located', node⟩ := read_eq_ok.1 (toOption_eq_some.1 read)
    rw [toOption_eq_some.1 located] at located'
    cases located'
    exact node
  obtain ⟨status, failures⟩ := fine returns
  refine ⟨r, parsed, stems, ?_, ?_, ?_⟩
  · rw [status]
    show Except.ok (if (alone "a.asm").failed || ((alone "b.asm").failed || false) then 1 else 0) = .ok 1
    rw [first]
    rfl
  · rw [failures]
    have kept : (["a.asm", "b.asm"].filter fun file => (alone file).failed) = ["a.asm"] := by simp [first, second]
    exact congrArg (List.map fun file => (Path.ofText file).name) kept
  · have reached : ∀ other ∈ r.files.take 1, ∀ e, (alone other).status ≠ .error e :=
      fun other member => returns other (List.mem_of_mem_take member)
    rw [files 1 "b.asm" rfl (.inr reached) _ (.inl writes)]
    exact made

/-- Two bytecode files, the first of which has an entry file that holds a list. -/
def listFolder : Folder := .ofFiles [(Path.ofText "a.bin", [2]), (Path.ofText "a.entries.json", encodeText "[]"),
  (Path.ofText "b.bin", [2])]

/-- The first file ends the run. -/
theorem run_files_list : ∃ r, parse ["disassemble", "a.bin", "b.bin"] = .ok r ∧
    (r.files.map fun file => (Path.ofText file).stem).Nodup ∧
    (∀ file ∈ r.files, ∀ other ∈ r.files, ∀ place, (r.prepared listFolder).locate (Path.ofText file) = .ok place →
      ¬ r.Writes listFolder (Path.ofText other) place) ∧
    ∃ e, (CommandLine.run ["disassemble", "a.bin", "b.bin"] listFolder).status = .error e := by
  let r : Request := { action := .disassemble, files := ["a.bin", "b.bin"] }
  have parsed : parse ["disassemble", "a.bin", "b.bin"] = .ok r :=
    toOption_eq_some.1 (by decide +kernel)
  have escapes : (CommandLine.run ["disassemble", "a.bin", "b.bin"] listFolder).status.toBool = false := by
    decide +kernel
  refine ⟨r, parsed, by decide +kernel, disjoint_of_names (by decide +kernel), ?_⟩
  cases status : (CommandLine.run ["disassemble", "a.bin", "b.bin"] listFolder).status with
  | error e => exact ⟨e, rfl⟩
  | ok n =>
    rw [status] at escapes
    cases escapes

end Request

end EventScript.CommandLine
