import EventScript.Proofs.Labelling
import EventScript.Source.Printer
import Mathlib.Data.List.Nodup

namespace EventScript

theorem LabelKind.merge_right_comm (a b c : LabelKind) : (a.merge b).merge c = (a.merge c).merge b := by
  cases a <;> cases b <;> cases c <;> rfl

theorem LabelKind.merge_comm (a b : LabelKind) : a.merge b = b.merge a := by
  cases a <;> cases b <;> rfl

namespace Marks

variable {marks marks' : Marks} {entries entries' : List (EntryPoint × Nat)} {s s' : Script}

theorem kindAt?_perm (perm : marks.Perm marks') : marks.kindAt? = marks'.kindAt? := by
  funext offset
  refine ((perm.filter _).map _).foldl_eq' (fun a _ b _ best => ?_) none
  cases best with
  | none => simp only [Option.elim, LabelKind.merge_comm a b]
  | some kind => simp only [Option.elim, LabelKind.merge_right_comm kind a b]

theorem nameAt?_congr (same : marks.kindAt? = marks'.kindAt?) : marks.nameAt? = marks'.nameAt? := by
  funext offset
  rw [nameAt?, nameAt?, same]

theorem addItem_congr (same : marks.kindAt? = marks'.kindAt?) : marks.addItem = marks'.addItem := by
  funext s unit
  rw [addItem, addItem, nameAt?_congr same]

theorem addEntry_congr (same : marks.kindAt? = marks'.kindAt?) : marks.addEntry = marks'.addEntry := by
  funext s entry
  rw [addEntry, addEntry, nameAt?_congr same]

def labelled (marks : Marks) (entry : EntryPoint × Nat) : EntryPoint × String :=
  (entry.1, (marks.nameAt? entry.2).getD "")

theorem foldlM_addEntry_eq_ok : entries.foldlM marks.addEntry s = .ok s' ↔
    (∀ e ∈ entries, (∃ name, marks.nameAt? e.2 = some name) ∧ e.1.isStageEvent = !s.target.isGlobals ∧
      ∀ e' ∈ s.entries, e'.1 ≠ e.1) ∧
      (entries.map Prod.fst).Nodup ∧ s' = { s with entries := s.entries ++ entries.map marks.labelled } := by
  induction entries generalizing s with
  | nil => simp [Pure.pure, Except.pure, eq_comm]
  | cons entry entries ih =>
    rw [List.foldlM_cons, bind_eq_ok]
    constructor
    · rintro ⟨s₁, step, rest⟩
      obtain ⟨name, named, step⟩ := addEntry_eq_ok.1 step
      obtain ⟨fresh, scope, rfl⟩ := Script.addEntry_eq_ok.1 step
      obtain ⟨others, distinct, rfl⟩ := ih.1 rest
      refine ⟨List.forall_mem_cons.2 ⟨⟨⟨name, named⟩, scope, fresh⟩, fun e member => ?_⟩, ?_, ?_⟩
      · obtain ⟨known, scope', fresh'⟩ := others e member
        exact ⟨known, scope', fun e' before => fresh' e' (List.mem_append_left _ before)⟩
      · rw [List.map_cons, List.nodup_cons]
        refine ⟨fun again => ?_, distinct⟩
        obtain ⟨e, member, same⟩ := List.mem_map.1 again
        exact (others e member).2.2 (entry.1, name) (by simp) same.symm
      · simp [labelled, named]
    · rintro ⟨each, distinct, rfl⟩
      obtain ⟨⟨⟨name, named⟩, scope, fresh⟩, others⟩ := List.forall_mem_cons.1 each
      rw [List.map_cons, List.nodup_cons] at distinct
      refine ⟨_, addEntry_eq_ok.2 ⟨name, named, Script.addEntry_eq_ok.2 ⟨fresh, scope, rfl⟩⟩,
        ih.2 ⟨fun e member => ?_, distinct.2, by simp [labelled, named]⟩⟩
      obtain ⟨known, scope', fresh'⟩ := others e member
      refine ⟨known, scope', List.forall_mem_append.2 ⟨fresh', ?_⟩⟩
      rw [List.forall_mem_singleton]
      intro same
      exact distinct.1 (List.mem_map.2 ⟨e, member, same.symm⟩)

theorem foldlM_addEntry_perm (perm : entries.Perm entries')
    (added : entries.foldlM marks.addEntry s = .ok s') :
    ∃ es, entries'.foldlM marks.addEntry s = .ok { s' with entries := es } ∧ es.Perm s'.entries := by
  obtain ⟨each, distinct, rfl⟩ := foldlM_addEntry_eq_ok.1 added
  refine ⟨s.entries ++ entries'.map marks.labelled, foldlM_addEntry_eq_ok.2 ⟨fun e member => ?_, ?_, rfl⟩, ?_⟩
  · exact each e (perm.mem_iff.2 member)
  · exact (perm.map Prod.fst).nodup_iff.1 distinct
  · exact (perm.map marks.labelled).symm.append_left s.entries

end Marks

namespace Recovery

variable {r r' : Recovery} {data : Bytes} {seeds seeds' : List Seed}

theorem marks_perm {starts : Marks} (perm : r.seeds.Perm starts) : r.marks.Perm { r with seeds := starts }.marks :=
  (perm.append_right _).append_right _

theorem units_congr (r : Recovery) {marks marks' : Marks} (same : marks.kindAt? = marks'.kindAt?) :
    r.units marks = r.units marks' := by
  funext region
  cases region with
  | code d =>
    have names : r.nameTarget marks = r.nameTarget marks' := by
      funext o
      cases o <;> simp only [nameTarget, Marks.nameAt?_congr same]
    simp only [units, nameTargets, names]
  | gap start stop => simp only [units, Marks.cuts, same]

theorem script_perm {starts : Marks} (perm : r.seeds.Perm starts) (target : Target)
    (entries : List (EntryPoint × Nat)) :
    { r with seeds := starts }.script target entries = r.script target entries := by
  have same := Marks.kindAt?_perm (r.marks_perm perm)
  unfold script
  simp only [← Marks.nameAt?_congr same, ← Marks.addItem_congr same, ← Marks.addEntry_congr same]
  have units : { r with seeds := starts }.units { r with seeds := starts }.marks = r.units r.marks :=
    (r.units_congr same).symm
  rw [units]
  rfl

theorem starts_eq {size : Nat} {starts : Marks} (checked : seeds.mapM (Seed.check size) = .ok starts) :
    starts = seeds.map fun seed => (seed.kind, seed.2.toNat) := by
  have each := mapM_eq_ok.1 checked
  clear checked
  induction each with
  | nil => rfl
  | cons head _ ih =>
    obtain ⟨-, rfl⟩ := check_eq_ok.1 head
    rw [List.map_cons, ih]

theorem Reachable.mono (more : ∀ seed ∈ seeds, seed ∈ seeds') {p : Nat} (reached : Reachable data seeds p) :
    Reachable data seeds' p := by
  induction reached with
  | seed given => exact .seed (more _ given)
  | next _ inside decoded goesOn ih => exact .next ih inside decoded goesOn
  | target _ inside decoded leads ih => exact .target ih inside decoded leads

theorem Unreadable.mono (more : ∀ seed ∈ seeds, seed ∈ seeds') (unreadable : Unreadable data seeds) :
    Unreadable data seeds' := by
  cases unreadable with
  | outside given outside => exact .outside (more _ given) outside
  | undecoded reached inside failed => exact .undecoded (reached.mono more) inside failed
  | overlap valid valid' reached reached' different shared =>
    exact .overlap valid valid' (reached.mono more) (reached'.mono more) different shared

theorem Ordered.offset_lt (ordered : r.Ordered) : r.code.Pairwise fun d e => d.offset < e.offset := by
  refine ordered.ordered.imp_of_mem fun inside _ before => ?_
  have nonempty := (ordered.each _ inside).lt_stop
  omega

theorem Ordered.code_ext (ordered : r.Ordered) (ordered' : r'.Ordered) (same : ∀ d, d ∈ r.code ↔ d ∈ r'.code) :
    r.code = r'.code := by
  have distinct {r : Recovery} (ordered : r.Ordered) : r.code.Nodup := by
    refine ordered.offset_lt.imp fun before equal => ?_
    rw [equal] at before
    omega
  have perm := (List.perm_ext_iff_of_nodup (distinct ordered) (distinct ordered')).2 same
  exact perm.eq_of_pairwise (fun d e _ _ before after => by omega) ordered.offset_lt ordered'.offset_lt

theorem ofSeeds_perm (perm : seeds.Perm seeds') (recovered : ofSeeds data seeds = .ok r) :
    ∃ starts, r.seeds.Perm starts ∧ ofSeeds data seeds' = .ok { r with seeds := starts } := by
  have more : ∀ seed ∈ seeds, seed ∈ seeds' := fun _ => perm.mem_iff.1
  have fewer : ∀ seed ∈ seeds', seed ∈ seeds := fun _ => perm.mem_iff.2
  have readable : ¬ Unreadable data seeds' := fun unreadable =>
    not_unreadable_of_ofSeeds recovered (unreadable.mono fewer)
  obtain ⟨r', recovered'⟩ := exists_ofSeeds readable
  obtain ⟨rfl, ordered⟩ := ofSeeds_ordered recovered
  obtain ⟨sameData, ordered'⟩ := ofSeeds_ordered recovered'
  have code : r'.code = r.code := by
    refine ordered'.code_ext ordered fun d => ?_
    rw [mem_code_iff recovered', mem_code_iff recovered]
    exact and_congr_right fun _ => ⟨Reachable.mono fewer, Reachable.mono more⟩
  have starts {seeds : List Seed} {r₁ : Recovery} (recovered : ofSeeds r.data seeds = .ok r₁) :
      r₁.seeds = seeds.map fun seed => (seed.kind, seed.2.toNat) := by
    obtain ⟨starts, found, checked, -, rfl⟩ := ofSeeds_eq_ok.1 recovered
    exact starts_eq checked
  refine ⟨r'.seeds, ?_, ?_⟩
  · rw [starts recovered, starts recovered']
    exact perm.map _
  · rw [recovered', ← code, ← sameData]

end Recovery

theorem Target.ofSeeds_perm {seeds seeds' : List Seed} (perm : seeds.Perm seeds') :
    Target.ofSeeds seeds = Target.ofSeeds seeds' := by
  rw [ofSeeds, ofSeeds, perm.any_eq]

namespace EntryPoint

theorem tableLe_iff {a b : EntryPoint} : a.tableLe b = true ↔
    a.roleRank < b.roleRank ∨ a.roleRank = b.roleRank ∧ a.key.getD 0 ≤ b.key.getD 0 := by
  simp [tableLe]

theorem eq_of_rank {a b : EntryPoint} (rank : a.roleRank = b.roleRank) (key : a.key.getD 0 = b.key.getD 0) :
    a = b := by
  cases a with
  | event e =>
    cases b with
    | event e' => cases e <;> cases e' <;> first | rfl | cases rank
    | _ => cases e <;> cases rank
  | interact object =>
    cases b with
    | event e => cases e <;> cases rank
    | interact object' => exact congrArg interact key
    | library => cases rank
  | library index =>
    cases b with
    | event e => cases e <;> cases rank
    | interact => cases rank
    | library index' => exact congrArg library key

theorem tableLe_trans {a b c : EntryPoint} (first : a.tableLe b = true) (second : b.tableLe c = true) :
    a.tableLe c = true := by
  rw [tableLe_iff] at *
  omega

theorem tableLe_total (a b : EntryPoint) : a.tableLe b = true ∨ b.tableLe a = true := by
  rw [tableLe_iff, tableLe_iff]
  omega

theorem tableLe_antisymm {a b : EntryPoint} (first : a.tableLe b = true) (second : b.tableLe a = true) : a = b := by
  rw [tableLe_iff] at first second
  exact eq_of_rank (by omega) (by omega)

end EntryPoint

namespace Script

variable {s s' : Script} {entries : List (EntryPoint × String)} {data : Bytes} {seeds seeds' : List Seed}
  {target : Option Target} {limit : Nat}

theorem entryPoints_perm (perm : entries.Perm s.entries) (distinct : (s.entries.map Prod.fst).Nodup) :
    { s with entries := entries }.entryPoints = s.entryPoints := by
  have sorted (es : List (EntryPoint × String)) :
      (es.mergeSort fun a b => a.1.tableLe b.1).Pairwise fun a b => a.1.tableLe b.1 = true := by
    refine List.pairwise_mergeSort ?_ ?_ es
    · intro a b c
      exact EntryPoint.tableLe_trans
    · intro a b
      simpa using EntryPoint.tableLe_total a.1 b.1
  have merged (es : List (EntryPoint × String)) := List.mergeSort_perm es fun a b => a.1.tableLe b.1
  refine List.Perm.eq_of_pairwise (fun a b inA inB first second => ?_) (sorted entries) (sorted s.entries)
    ((merged entries).trans (perm.trans (merged s.entries).symm))
  have inA' := perm.mem_iff.1 ((merged entries).mem_iff.1 inA)
  have inB' := (merged s.entries).mem_iff.1 inB
  exact List.inj_on_of_nodup_map distinct inA' inB' (EntryPoint.tableLe_antisymm first second)

theorem print_perm (perm : entries.Perm s.entries) (distinct : (s.entries.map Prod.fst).Nodup) :
    { s with entries := entries }.print = s.print := by
  have table := entryPoints_perm perm distinct
  simp only [print, toText, lines, table]
  rfl

theorem pinFrom_entries (s : Script) (entries : List (EntryPoint × String)) (limit rounds : Nat) (pins : List Pin) :
    { s with entries := entries }.pinFrom limit rounds pins = s.pinFrom limit rounds pins := by
  induction rounds generalizing pins with
  | zero => rfl
  | succ rounds ih =>
    simp only [pinFrom, ih]
    rfl

theorem minimizePins_entries (entries : List (EntryPoint × String)) (minimized : s.minimizePins limit = .ok s') :
    { s with entries := entries }.minimizePins limit = .ok { s' with entries := entries } ∧
      s'.entries = s.entries := by
  obtain ⟨pins, pinned, same⟩ := bind_eq_ok.1 minimized
  obtain rfl := pure_eq_ok.1 same
  refine ⟨?_, rfl⟩
  unfold minimizePins
  rw [pinFrom_entries, bind_eq_ok]
  exact ⟨pins, pinned, rfl⟩

theorem disassemble_of_perm (perm : seeds.Perm seeds') (disassembled : disassemble data seeds target limit = .ok s) :
    ∃ entries, disassemble data seeds' target limit = .ok { s with entries := entries } ∧
      entries.Perm s.entries ∧ (s.entries.map Prod.fst).Nodup := by
  obtain ⟨r, s₀, recovered, built, minimized⟩ := disassemble_eq_ok.1 disassembled
  obtain ⟨starts, perm', recovered'⟩ := Recovery.ofSeeds_perm perm recovered
  obtain ⟨base, -, noEntries, scripts⟩ := Recovery.exists_script_of_ofSeeds recovered (target.getD (.ofSeeds seeds))
  have entered := (scripts (declaredEntries seeds)).symm.trans built
  have declared : (declaredEntries seeds).Perm (declaredEntries seeds') := perm.filterMap _
  obtain ⟨entries, entered', permuted⟩ := Marks.foldlM_addEntry_perm declared entered
  obtain ⟨minimized', same⟩ := minimizePins_entries entries minimized
  refine ⟨entries, disassemble_eq_ok.2 ⟨_, _, recovered', ?_, minimized'⟩, same ▸ permuted, ?_⟩
  · rw [Recovery.script_perm perm', ← Target.ofSeeds_perm perm]
    exact (scripts (declaredEntries seeds')).trans entered'
  · rw [same]
    exact (Recovery.script_eq_ok built).distinct

/-- The order of the seeds does not matter: they can be disassembled in one order exactly if they can be
in the other, and the two scripts have the same target and blocks, the same places for the labels, the
same label for each entry point, and the same text. -/
theorem disassemble_perm (data : Bytes) (target : Option Target) (limit : Nat) (perm : seeds.Perm seeds') :
    ((∃ s, disassemble data seeds target limit = .ok s) ↔ ∃ s', disassemble data seeds' target limit = .ok s') ∧
    ∀ s s', disassemble data seeds target limit = .ok s → disassemble data seeds' target limit = .ok s' →
      s'.target = s.target ∧ s'.blocks = s.blocks ∧ s'.labels.bindings = s.labels.bindings ∧
      (s.entries.map Prod.fst).Nodup ∧ (s'.entries.map Prod.fst).Nodup ∧
      (∀ entry label, (entry, label) ∈ s'.entries ↔ (entry, label) ∈ s.entries) ∧
      s'.print = s.print := by
  refine ⟨⟨fun ⟨s, disassembled⟩ => ?_, fun ⟨s, disassembled⟩ => ?_⟩, fun s s' disassembled disassembled' => ?_⟩
  · obtain ⟨entries, disassembled', -⟩ := disassemble_of_perm perm disassembled
    exact ⟨_, disassembled'⟩
  · obtain ⟨entries, disassembled', -⟩ := disassemble_of_perm perm.symm disassembled
    exact ⟨_, disassembled'⟩
  · obtain ⟨entries, reordered, permuted, distinct⟩ := disassemble_of_perm perm disassembled
    obtain rfl : _ = s' := Except.ok.inj (reordered.symm.trans disassembled')
    exact ⟨rfl, rfl, rfl, distinct, (permuted.map Prod.fst).nodup_iff.2 distinct,
      fun _ _ => permuted.mem_iff, print_perm permuted distinct⟩

/-- Two events of one `return` each, given in both orders. -/
theorem disassemble_perm_events :
    ([(some (.event .startup), 1), (some (.event .prologue), 0)] : List Seed).Perm
      [(some (.event .prologue), 0), (some (.event .startup), 1)] ∧
    ∃ s s', disassemble [2, 2] [(some (.event .startup), 1), (some (.event .prologue), 0)] none 1 = .ok s ∧
      disassemble [2, 2] [(some (.event .prologue), 0), (some (.event .startup), 1)] none 1 = .ok s' ∧
      s'.blocks = s.blocks ∧ s'.labels.bindings = s.labels.bindings ∧ s'.print = s.print := by
  have perm : ([(some (.event .startup), 1), (some (.event .prologue), 0)] : List Seed).Perm
      [(some (.event .prologue), 0), (some (.event .startup), 1)] := .swap ..
  have explored : Explore.explore [2, 2] [0, 1] [] =
      .ok [⟨1, 1, ⟨"return", [], none⟩⟩, ⟨0, 1, ⟨"return", [], none⟩⟩] := by
    rw [Explore.explore_visit (by decide) rfl rfl]
    change Explore.explore [2, 2] [1] _ = _
    rw [Explore.explore_visit (by decide) rfl rfl]
    change Explore.explore [2, 2] [] _ = _
    rw [Explore.explore]
    rfl
  have recovered : Recovery.ofSeeds [2, 2] [(some (.event .startup), 1), (some (.event .prologue), 0)] =
      .ok ⟨[2, 2], [(.event, 1), (.event, 0)],
        [⟨0, 1, ⟨"return", [], none⟩⟩, ⟨1, 1, ⟨"return", [], none⟩⟩]⟩ :=
    Recovery.ofSeeds_eq_ok.2 ⟨_, _, rfl, explored, by simp [List.mergeSort, Seed.kind]⟩
  have succeeds : (disassemble [2, 2] [(some (.event .startup), 1), (some (.event .prologue), 0)] none 1).isOk =
      true := by
    rw [disassemble, recovered]
    decide +kernel
  refine ⟨perm, ?_⟩
  cases disassembled : disassemble [2, 2] [(some (.event .startup), 1), (some (.event .prologue), 0)] none 1 with
  | error =>
    rw [disassembled] at succeeds
    cases succeeds
  | ok s =>
    obtain ⟨both, equal⟩ := disassemble_perm [2, 2] none 1 perm
    obtain ⟨s', disassembled'⟩ := both.1 ⟨s, disassembled⟩
    obtain ⟨-, blocks, labels, -, -, -, text⟩ := equal s s' disassembled disassembled'
    exact ⟨s, s', rfl, disassembled', blocks, labels, text⟩

end Script

end EventScript
