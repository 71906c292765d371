import EventScript.Proofs.Folders

namespace EventScript.CommandLine

/-- The errors differ at most in why a path leads nowhere. -/
def FileError.Alike (e e' : FileError) : Prop := e = .nameTooLong ↔ e' = .nameTooLong

theorem FileError.Alike.refl (e : FileError) : e.Alike e := Iff.rfl

namespace Folder

variable {f g h : Folder} {W A : Place → Prop} {p : Path} {place : Place}

/-- `f` is `g` with files written at some of the places. -/
structure Over (W : Place → Prop) (f g : Folder) : Prop where
  folders : f.isFolder = g.isFolder
  nodes : ∀ place, ¬ W place → f.nodeAt place = g.nodeAt place
  present : ∀ place, g.nodeAt place ≠ .missing → f.nodeAt place ≠ .missing

theorem Over.refl (W : Place → Prop) (f : Folder) : Over W f f := ⟨rfl, fun _ _ => rfl, fun _ => id⟩

theorem Over.trans (first : Over W h f) (second : Over W f g) : Over W h g where
  folders := first.folders.trans second.folders
  nodes place outside := (first.nodes place outside).trans (second.nodes place outside)
  present place there := first.present place (second.present place there)

theorem Over.mono (covers : Over W f g) (more : ∀ place, W place → A place) : Over A f g :=
  ⟨covers.folders, fun place outside => covers.nodes place fun inside => outside (more place inside), covers.present⟩

theorem step_agree (folders : f.isFolder = g.isFolder) (place : Place) (part : String) :
    AgreeOn FileError.Alike (· = ·) (f.step place part) (g.step place part) := by
  have same : f.nodeAt place = .folder ↔ g.nodeAt place = .folder := by
    rw [nodeAt_eq_folder, nodeAt_eq_folder, folders]
  unfold step
  cases first : f.nodeAt place with
  | folder =>
    rw [same.1 first]
    dsimp only
    split
    · exact Iff.rfl
    · split <;> rfl
  | _ =>
    cases second : g.nodeAt place with
    | folder => cases first.symm.trans (same.2 second)
    | _ => simp [AgreeOn, FileError.Alike]

theorem locate_agree (folders : f.isFolder = g.isFolder) (p : Path) :
    AgreeOn FileError.Alike (· = ·) (f.locate p) (g.locate p) := by
  unfold locate
  exact .ite (fun _ => Iff.rfl) fun _ => .foldlM (step_agree folders) p.parts _

theorem locate_cases (folders : f.isFolder = g.isFolder) (p : Path) :
    (∃ place, f.locate p = .ok place ∧ g.locate p = .ok place) ∨
      ∃ e e', f.locate p = .error e ∧ g.locate p = .error e' ∧ e.Alike e' := by
  rcases (locate_agree folders p).cases with ⟨place, _, first, second, rfl⟩ | failed
  · exact .inl ⟨place, first, second⟩
  · exact .inr failed

theorem locate_congr (folders : f.isFolder = g.isFolder) : f.locate p = .ok place ↔ g.locate p = .ok place := by
  rcases locate_cases folders p with ⟨place', first, second⟩ | ⟨e, e', first, second, -⟩ <;> rw [first, second]
  simp

theorem Over.read_agree (covers : Over W f g) (apart : ∀ place, g.locate p = .ok place → ¬ W place) :
    AgreeOn FileError.Alike (· = ·) (f.read p) (g.read p) := by
  unfold read
  rcases locate_cases covers.folders p with ⟨place, first, second⟩ | ⟨e, e', first, second, alike⟩
  · simp only [first, second, Bind.bind, Except.bind, covers.nodes place (apart place second)]
    exact .refl FileError.Alike.refl _
  · rw [first, second]
    exact alike

theorem Over.contains_eq (covers : Over W f g) (apart : ∀ place, g.locate p = .ok place → ¬ W place) :
    f.contains p = g.contains p := by
  unfold contains
  rcases locate_cases covers.folders p with ⟨place, first, second⟩ | ⟨e, e', first, second, alike⟩
  · simp only [first, second, covers.nodes place (apart place second)]
  · simp only [first, second]
    by_cases long : e = .nameTooLong
    · rw [long, alike.1 long]
    · have short := fun same => long (alike.2 same)
      cases e <;> cases e' <;> first | rfl | exact absurd rfl long | exact absurd rfl short

@[simp] theorem isFolder_setFile (f : Folder) (place : Place) (bytes : Bytes) :
    (f.setFile place bytes).isFolder = f.isFolder := by
  unfold setFile
  split <;> rfl

theorem nodeAt_eq_elim (notFolder : f.isFolder place = false) :
    f.nodeAt place = ((f.files.find? (·.1 == place)).map Prod.snd).elim .missing .file := by
  unfold nodeAt
  rw [notFolder]
  cases f.files.find? (·.1 == place) <;> rfl

theorem find?_setFile (f : Folder) (place : Place) (bytes : Bytes) (other : Place) :
    ((f.setFile place bytes).files.find? (·.1 == other)).map Prod.snd =
      if other = place then some bytes else (f.files.find? (·.1 == other)).map Prod.snd := by
  unfold setFile
  split
  · rename_i present
    have keys : (fun old : Place × Bytes => (if (old.1 == place) = true then (place, bytes) else old).1 == other) =
        (·.1 == other) := by
      funext old
      split <;> simp_all
    rw [List.find?_map, Function.comp_def, keys]
    cases found : f.files.find? (·.1 == other) with
    | none =>
      have distinct : other ≠ place := by
        rintro rfl
        obtain ⟨old, member, key⟩ := List.any_eq_true.1 present
        exact List.find?_eq_none.1 found old member key
      rw [if_neg distinct]
      rfl
    | some old =>
      have key : old.1 = other := by simpa using List.find?_some found
      by_cases same : other = place <;> simp [key, same]
  · rename_i absent
    rw [List.find?_append]
    rcases eq_or_ne other place with rfl | distinct
    · have none : f.files.find? (·.1 == other) = none :=
        List.find?_eq_none.2 fun old member key => absent (List.any_eq_true.2 ⟨old, member, key⟩)
      simp [none]
    · simp [distinct, distinct.symm]

theorem nodeAt_setFile (bytes : Bytes) (free : f.isFolder place = false) (other : Place) :
    (f.setFile place bytes).nodeAt other = if other = place then .file bytes else f.nodeAt other := by
  cases kind : f.isFolder other with
  | true =>
    have distinct : other ≠ place := by
      rintro rfl
      rw [free] at kind
      cases kind
    rw [if_neg distinct, nodeAt_eq_folder.2 kind, nodeAt_eq_folder, isFolder_setFile, kind]
  | false =>
    rw [nodeAt_eq_elim (by rw [isFolder_setFile, kind]), find?_setFile, nodeAt_eq_elim kind]
    split <;> rfl

theorem over_setFile (bytes : Bytes) (free : f.isFolder place = false) (inside : A place) :
    Over A (f.setFile place bytes) f where
  folders := isFolder_setFile ..
  nodes other outside := by
    have distinct : other ≠ place := by
      rintro rfl
      exact outside inside
    rw [nodeAt_setFile bytes free, if_neg distinct]
  present other there := by
    rw [nodeAt_setFile bytes free]
    split
    · simp
    · exact there

theorem Over.setFile (covers : Over W f g) (bytes : Bytes) (free : f.isFolder place = false) :
    Over W (f.setFile place bytes) (g.setFile place bytes) where
  folders := by rw [isFolder_setFile, isFolder_setFile, covers.folders]
  nodes other outside := by
    rw [nodeAt_setFile bytes free, nodeAt_setFile bytes (covers.folders ▸ free), covers.nodes other outside]
  present other := by
    rw [nodeAt_setFile bytes free, nodeAt_setFile bytes (covers.folders ▸ free)]
    split
    · exact id
    · exact covers.present other

theorem Over.write_agree (covers : Over W f g) (p : Path) (bytes : Bytes) :
    AgreeOn FileError.Alike (Over W) (f.write p bytes) (g.write p bytes) := by
  rcases locate_cases covers.folders p with ⟨place, first, second⟩ | ⟨e, e', first, second, alike⟩
  · cases kind : f.isFolder place with
    | true =>
      rw [write, write, first, second]
      simp only [Bind.bind, Except.bind, nodeAt_eq_folder.2 kind, nodeAt_eq_folder.2 (covers.folders ▸ kind)]
      exact Iff.rfl
    | false =>
      rw [write_eq_ok.2 ⟨place, first, kind, rfl⟩, write_eq_ok.2 ⟨place, second, covers.folders ▸ kind, rfl⟩]
      exact covers.setFile bytes kind
  · rw [write, write, first, second]
    exact alike

theorem over_of_write {bytes : Bytes} {f' : Folder} (written : f.write p bytes = .ok f')
    (inside : ∀ place, f.locate p = .ok place → A place) : Over A f' f := by
  obtain ⟨place, located, free, rfl⟩ := write_eq_ok.1 written
  exact over_setFile bytes free (inside place located)

/-- Folders were made, and nothing else. -/
structure Grows (f g : Folder) : Prop where
  files : g.files = f.files
  folders : ∀ place, f.isFolder place = true → g.isFolder place = true

theorem Grows.refl (f : Folder) : Grows f f := ⟨rfl, fun _ => id⟩

theorem Grows.trans (first : Grows f g) (second : Grows g h) : Grows f h :=
  ⟨second.files.trans first.files, fun place here => second.folders place (first.folders place here)⟩

theorem isFolder_addFolder (f : Folder) (next place : Place) :
    { f with folders := f.folders ++ [next] }.isFolder place = (f.isFolder place || place == next) := by
  rw [Bool.eq_iff_iff]
  simp [isFolder, or_assoc]

theorem grows_makePart (f : Folder) (place : Place) (part : String) (isLast : Bool) :
    Grows f (f.makePart place part isLast).1 := by
  unfold makePart
  cases f.step place part with
  | error e => exact .refl f
  | ok next =>
    dsimp only
    cases f.nodeAt next with
    | missing => exact ⟨rfl, fun place here => by rw [isFolder_addFolder, here, Bool.true_or]⟩
    | _ => exact .refl f

theorem grows_makeParts (f : Folder) (place : Place) (parts : List String) : Grows f (f.makeParts place parts).1 := by
  induction parts generalizing f place with
  | nil => exact .refl f
  | cons part rest ih =>
    have first := grows_makePart f place part rest.isEmpty
    unfold makeParts
    rcases made : f.makePart place part rest.isEmpty with ⟨g, e | next⟩
    · rw [made] at first
      exact first
    · rw [made] at first
      exact first.trans (ih g next)

theorem makePart_eq_ok {part : String} {isLast : Bool} {next : Place} : f.makePart place part isLast = (g, .ok next) ↔
    f.step place part = .ok next ∧ (f.isFolder next = true ∧ g = f ∨
      f.nodeAt next = .missing ∧ g = { f with folders := f.folders ++ [next] }) := by
  unfold makePart
  cases f.step place part with
  | error e => simp
  | ok found =>
    dsimp only
    constructor
    · intro made
      cases node : f.nodeAt found with
      | folder =>
        rw [node] at made
        cases made
        exact ⟨rfl, .inl ⟨nodeAt_eq_folder.1 node, rfl⟩⟩
      | file bytes =>
        rw [node] at made
        cases made
      | missing =>
        rw [node] at made
        cases made
        exact ⟨rfl, .inr ⟨node, rfl⟩⟩
    · rintro ⟨same, ⟨here, rfl⟩ | ⟨missing, rfl⟩⟩
      · cases same
        rw [nodeAt_eq_folder.2 here]
      · cases same
        rw [missing]

theorem makePart_of_grows {part : String} {isLast : Bool} {next : Place}
    (made : f.makePart place part isLast = (g, .ok next)) (grows : Grows g h) :
    h.makePart place part isLast = (h, .ok next) := by
  have before := grows_makePart f place part isLast
  rw [made] at before
  obtain ⟨step, result⟩ := makePart_eq_ok.1 made
  obtain ⟨here, short, same⟩ := step_eq_ok.1 step
  refine makePart_eq_ok.2 ⟨step_eq_ok.2 ⟨(before.trans grows).folders place here, short, same⟩, .inl ⟨?_, rfl⟩⟩
  refine grows.folders next ?_
  rcases result with ⟨there, rfl⟩ | ⟨-, rfl⟩
  · exact there
  · rw [isFolder_addFolder, beq_self_eq_true, Bool.or_true]

theorem makePart_of_error {part : String} {isLast : Bool} {e : FileError}
    (made : f.makePart place part isLast = (g, .error e)) : g = f := by
  unfold makePart at made
  cases step : f.step place part with
  | error e' =>
    rw [step] at made
    cases made
    rfl
  | ok next =>
    rw [step] at made
    dsimp only at made
    cases node : f.nodeAt next <;> rw [node] at made <;> cases made
    rfl

theorem makeParts_makeParts (f : Folder) (place : Place) (parts : List String) :
    (f.makeParts place parts).1.makeParts place parts = f.makeParts place parts := by
  induction parts generalizing f place with
  | nil => rfl
  | cons part rest ih =>
    rcases made : f.makePart place part rest.isEmpty with ⟨g, e | next⟩
    · have same := makePart_of_error made
      subst same
      simp only [makeParts, made]
    · have all : f.makeParts place (part :: rest) = g.makeParts next rest := by rw [makeParts, made]
      rw [all, makeParts, makePart_of_grows made (grows_makeParts g next rest)]
      exact ih g next

theorem make_make (f : Folder) (p : Path) : (f.make p).1.make p = f.make p := by
  unfold make
  split
  · rfl
  · exact makeParts_makeParts ..

theorem Over.makePart_agree (covers : Over W f g) {part : String} {isLast : Bool}
    (made : (g.makePart place part isLast).1 = g) : (f.makePart place part isLast).1 = f ∧
      AgreeOn FileError.Alike (· = ·) (f.makePart place part isLast).2 (g.makePart place part isLast).2 := by
  unfold makePart at made ⊢
  rcases (step_agree covers.folders place part).cases with ⟨next, _, first, second, rfl⟩ | ⟨e, e', first, second, alike⟩
  · rw [second] at made
    rw [first, second]
    dsimp only at made ⊢
    cases node : g.nodeAt next with
    | folder =>
      rw [nodeAt_eq_folder.2 (covers.folders ▸ nodeAt_eq_folder.1 node)]
      exact ⟨rfl, rfl⟩
    | file bytes =>
      cases node' : f.nodeAt next with
      | folder =>
        rw [nodeAt_eq_folder, covers.folders, ← nodeAt_eq_folder, node] at node'
        cases node'
      | file bytes' => exact ⟨rfl, FileError.Alike.refl _⟩
      | missing => exact absurd node' (covers.present next (by simp [node]))
    | missing =>
      rw [node] at made
      have there := isFolder_addFolder g next next
      rw [show { g with folders := g.folders ++ [next] } = g from made, beq_self_eq_true, Bool.or_true] at there
      rw [nodeAt_eq_folder.2 there] at node
      cases node
  · rw [first, second]
    exact ⟨rfl, alike⟩

theorem Over.makeParts_agree (covers : Over W f g) {parts : List String} {place : Place}
    (made : (g.makeParts place parts).1 = g) : (f.makeParts place parts).1 = f ∧
      AgreeOn FileError.Alike (· = ·) (f.makeParts place parts).2 (g.makeParts place parts).2 := by
  induction parts generalizing place with
  | nil => exact ⟨rfl, rfl⟩
  | cons part rest ih =>
    unfold makeParts at made ⊢
    have kept : (g.makePart place part rest.isEmpty).1 = g := by
      rcases second : g.makePart place part rest.isEmpty with ⟨g', e | next⟩
      · exact makePart_of_error second
      · rw [second] at made
        have again := makePart_of_grows second (made ▸ grows_makeParts g' next rest)
        exact congrArg Prod.fst (second.symm.trans again)
    obtain ⟨kept', agree⟩ := covers.makePart_agree kept
    rcases first : f.makePart place part rest.isEmpty with ⟨f', result'⟩
    rcases second : g.makePart place part rest.isEmpty with ⟨g', result⟩
    rw [first] at kept' agree
    rw [second] at kept agree made
    obtain rfl : f' = f := kept'
    obtain rfl : g' = g := kept
    rcases agree.cases with ⟨next, _, rfl, rfl, rfl⟩ | ⟨e, e', rfl, rfl, alike⟩
    · exact ih made
    · exact ⟨rfl, alike⟩

theorem Over.make_agree (covers : Over W f g) (made : (g.make p).1 = g) :
    (f.make p).1 = f ∧ AgreeOn FileError.Alike (· = ·) (f.make p).2 (g.make p).2 := by
  unfold make at made ⊢
  split
  · exact ⟨rfl, Iff.rfl⟩
  · rename_i plain
    rw [if_neg plain] at made
    exact covers.makeParts_agree made

end Folder

end EventScript.CommandLine
