import EventScript.Proofs.Rediscovery

namespace EventScript

def ResolutionCause.isEntry : ResolutionCause → Bool
  | duplicateEntry _ | stageEventInGlobals | libraryInStage => true
  | _ => false

theorem ResolutionCause.isEntry_iff (cause : ResolutionCause) :
    cause.isEntry = true ↔ cause.reason = "DuplicateEntryPoint" ∨ cause.reason = "ScopeMismatch" := by
  cases cause <;> simp [isEntry, reason]

def Error.IsEntry (e : Error) : Prop := ∃ error, e = .resolution error ∧ error.cause.isEntry = true

def Error.IsLongKey (given : List EntryPoint) (e : Error) : Prop :=
  e = .numeral .unwritable ∧ ∃ entry, entry.isWritable = false ∧ 2 ≤ given.count entry

theorem Script.addEntry_failsOnly (s : Script) (entry : EntryPoint) (label : String) (span : Option Span) :
    FailsOnly (fun e => e.cause.isEntry = true ∧
      (e.cause.isWritable = false → entry.isWritable = false ∧ entry ∈ s.entries.map Prod.fst))
      (s.addEntry entry label span) := by
  refine .ite (fun again => .error ⟨rfl, fun long => ⟨long, ?_⟩⟩) fun _ => ?_
  · obtain ⟨e, member, same⟩ := List.any_eq_true.1 again
    exact List.mem_map.2 ⟨e, member, beq_iff_eq.1 same⟩
  · exact .ite (fun _ => .error ⟨rfl, nofun⟩) fun _ => .ite (fun _ => .error ⟨rfl, nofun⟩) fun _ => .of_ok rfl

theorem Marks.addEntry_failsOnly {marks : Marks} (s : Script) {entry : EntryPoint × Nat} {name : String}
    (named : marks.nameAt? entry.2 = some name) (later : List EntryPoint) :
    FailsOnly (fun e => e.IsEntry ∨ e.IsLongKey (s.entries.map Prod.fst ++ entry.1 :: later))
      (marks.addEntry s entry) := by
  simp only [addEntry, named]
  refine FailsOnly.mapError ((s.addEntry_failsOnly entry.1 name none).mono fun e failed => ?_)
  obtain ⟨isEntry, again⟩ := failed
  cases writable : e.cause.isWritable with
  | true => exact .inl ⟨e, if_pos writable, isEntry⟩
  | false =>
    obtain ⟨long, member⟩ := again writable
    refine .inr ⟨if_neg (by simp [writable]), entry.1, long, ?_⟩
    have before := List.count_pos_iff.2 member
    rw [List.count_append, List.count_cons_self]
    omega

theorem Marks.foldlM_addEntry_failsOnly {marks : Marks} {entries : List (EntryPoint × Nat)}
    (named : ∀ entry ∈ entries, ∃ name, marks.nameAt? entry.2 = some name) (s : Script) :
    FailsOnly (fun e => e.IsEntry ∨ e.IsLongKey (s.entries.map Prod.fst ++ entries.map Prod.fst))
      (entries.foldlM marks.addEntry s) := by
  induction entries generalizing s with
  | nil => exact .of_ok rfl
  | cons entry entries ih =>
    obtain ⟨⟨name, here⟩, others⟩ := List.forall_mem_cons.1 named
    rw [List.foldlM_cons]
    refine (addEntry_failsOnly s here _).bind fun s' added => ?_
    obtain ⟨_, -, added⟩ := addEntry_eq_ok.1 added
    obtain ⟨-, -, rfl⟩ := Script.addEntry_eq_ok.1 added
    simpa using ih others { s with entries := s.entries ++ [(entry.1, _)] }

namespace Code

@[simp] theorem pointers_cons_pointer (q : Pointer) (item : ItemCode) :
    ItemCode.pointers (.pointer q :: item) = q :: ItemCode.pointers item := rfl

theorem pointers_cons_of_ne {piece : Piece} (notPointer : ∀ q, piece ≠ .pointer q) (item : ItemCode) :
    ItemCode.pointers (piece :: item) = ItemCode.pointers item := by
  cases piece with
  | pointer q => exact absurd rfl (notPointer q)
  | _ => rfl

theorem room_le (p : Pointer) : room p ≤ 2 := by
  unfold room
  split
  · omega
  · split <;> omega

theorem sum_room_le {starts : Nat → Nat} {stored : Pointer → Width → Prop} {code item : ItemCode}
    (resolves : List.Forall₂ (Piece.Resolves starts stored) code item) :
    (item.pointers.map room).sum ≤ code.size := by
  induction resolves with
  | nil => exact le_rfl
  | cons head _ ih =>
    simp only [ItemCode.size, List.map_cons, List.sum_cons] at ih ⊢
    cases head with
    | same _ notPointer =>
      rw [pointers_cons_of_ne notPointer]
      omega
    | pointer q w fits related =>
      have two := room_le q
      have size : 2 ≤ (Piece.bytes (w.constant (starts q.block))).size := by
        cases w <;> simp [Piece.size, Width.bytes]
      rw [pointers_cons_pointer, List.map_cons, List.sum_cons]
      omega

theorem slack_le_of_resolves {starts : Nat → Nat} {stored : Pointer → Width → Prop} {codes : List ItemCode} {c : Code}
    (resolves : List.Forall₂ (List.Forall₂ (Piece.Resolves starts stored)) codes c.items) :
    c.slack ≤ (codes.map ItemCode.size).sum := by
  unfold slack pointers
  generalize c.items = items at resolves
  induction resolves with
  | nil => exact le_rfl
  | cons head _ ih =>
    have first := sum_room_le head
    simp only [List.flatMap_cons, List.map_append, List.sum_append, List.map_cons, List.sum_cons]
    omega

end Code

namespace Recovery

variable {r : Recovery} {s : Script} {data : Bytes} {seeds : List Seed} {target : Target}
  {entries : List (EntryPoint × Nat)} {pins : List Pin} {c : Code} {limit : Nat}

theorem Ordered.slack_le (ordered : r.Ordered) (scripts : r.Scripts target entries s)
    (lowered : (s.loosen pins).lower = .ok c) : c.slack ≤ r.data.length := by
  have tiles : Tiles r.data 0 r.data.length r.scriptRawUnits := ordered.tiles
  obtain ⟨codes, related, sums, emits⟩ := tiles.exists_codes
  simp only [Nat.zero_add, ← scriptUnits_offsets] at sums
  have bounded := Code.slack_le_of_resolves (lower_resolves (scripts.placed sums) related lowered)
  obtain ⟨bs, emitted, -, length⟩ := emits []
  have total := Code.length_emitItems emitted
  omega

theorem Ordered.layout_failsOnly (ordered : r.Ordered) (scripts : r.Scripts target entries s) (pins : List Pin)
    (positive : 0 < limit) :
    FailsOnly (fun e => e.IsUnsettled ∧ limit ≤ r.data.length) ((s.loosen pins).layout limit) := by
  obtain ⟨c, lowered⟩ := ordered.exists_lower scripts pins
  have bounded := ordered.slack_le scripts lowered
  intro e failed
  refine ⟨?_, ?_⟩
  · revert failed
    refine FailsOnly.bind (.of_ok lowered) (fun c _ => ?_) e
    exact (c.settle_failsOnly positive).bind fun _ _ => .of_ok rfl
  · by_contra many
    have enough : c.slack < limit := by omega
    obtain ⟨d, passes, settled⟩ := Code.exists_settle enough
    rw [Script.layout_eq_ok.2 ⟨c, d, passes, lowered, settled, rfl⟩] at failed
    cases failed

end Recovery

theorem Script.pinFrom_failsOnly {s : Script} {P : Error → Prop} {limit : Nat}
    (laid : ∀ pins, FailsOnly P ((s.loosen pins).layout limit)) (rounds : Nat) (pins : List Pin) :
    FailsOnly P (s.pinFrom limit rounds pins) := by
  induction rounds generalizing pins with
  | zero => exact .of_ok rfl
  | succ rounds ih =>
    refine (laid pins).bind fun l _ => ?_
    dsimp only
    split
    · exact .of_ok rfl
    · exact ih _

namespace Recovery

variable {r : Recovery} {data : Bytes} {seeds : List Seed}

theorem exists_nameAt?_of_seed (recovered : ofSeeds data seeds = .ok r) {seed : Seed} (member : seed ∈ seeds) :
    ∃ name, r.marks.nameAt? seed.2.toNat = some name := by
  obtain ⟨starts, found, checked, -, rfl⟩ := ofSeeds_eq_ok.1 recovered
  obtain ⟨mark, inStarts, isMark⟩ := exists_right_of_mem (mapM_eq_ok.1 checked) member
  obtain ⟨-, rfl⟩ := check_eq_ok.1 isMark
  exact Marks.exists_nameAt? (List.mem_append_left _ (List.mem_append_left _ inStarts))

theorem script_failsOnly (recovered : ofSeeds data seeds = .ok r) (target : Target) :
    FailsOnly (fun e => e.IsEntry ∨ e.IsLongKey (seeds.filterMap Prod.fst))
      (r.script target (Script.declaredEntries seeds)) := by
  obtain ⟨s, -, noEntries, built⟩ := exists_script_of_ofSeeds recovered target
  have given : (Script.declaredEntries seeds).map Prod.fst = seeds.filterMap Prod.fst := by
    rw [Script.declaredEntries, List.map_filterMap]
    refine List.filterMap_congr fun seed _ => ?_
    obtain ⟨entry, offset⟩ := seed
    cases entry <;> rfl
  have named : ∀ entry ∈ Script.declaredEntries seeds, ∃ name, r.marks.nameAt? entry.2 = some name := by
    intro entry member
    obtain ⟨offset, inSeeds, same⟩ := Script.mem_declaredEntries.1 member
    exact same ▸ exists_nameAt?_of_seed recovered inSeeds
  have failsOnly := Marks.foldlM_addEntry_failsOnly named s
  rwa [noEntries, given, List.map_nil, List.nil_append, ← built] at failsOnly

end Recovery

namespace Script

variable {data : Bytes} {seeds : List Seed} {target : Option Target} {limit : Nat} {s : Script}

theorem verify_of_disassemble (disassembled : disassemble data seeds target limit = .ok s) :
    s.verify data limit = .ok () := by
  obtain ⟨r, s₀, pins, c, d, passes, recovered, scripts, rfl, lowered, settled, emitted, -, placed⟩ :=
    disassemble_layout disassembled
  obtain ⟨table, mapped⟩ : ∃ table, (s₀.loosen pins).entryAddresses (.ofCode d passes) = .ok table := by
    refine exists_mapM fun e member => ?_
    obtain ⟨e', declared, -, named⟩ :=
      exists_left_of_mem scripts.entries ((List.mergeSort_perm ..).mem_iff.1 member)
    obtain ⟨offset, inSeeds, same⟩ := mem_declaredEntries.1 declared
    obtain ⟨binding, found⟩ :=
      scripts.builds.declared (same ▸ (Recovery.seed_offset recovered inSeeds).2) named
    have address : (Layout.ofCode d passes).addressOf (s₀.loosen pins) e.2 = .ok e'.2 := by
      rw [Layout.addressOf_eq (s := s₀.loosen pins) found, blockAddress_eq_ok]
      exact placed e'.2 e.2 binding named found
    exact ⟨(e.1, e'.2), bind_eq_ok.2 ⟨_, address, rfl⟩⟩
  have assembled : (s₀.loosen pins).assemble limit = .ok ⟨data, table, .ofCode d passes⟩ := by
    simp only [assemble, lowered, settled, emitted, mapped, Bind.bind, Except.bind, Pure.pure, Except.pure]
  simp only [verify, assembled, Bind.bind, Except.bind, ne_eq, not_true_eq_false, if_false]
  rfl

/-- Disassembly fails only where the bytes cannot be read, where the entry points exclude each other or
the target, and where the layout needs more passes than it is given, which is never the case with more
of them than the buffer has bytes. An entry point that is given twice is named, unless its key has too many
digits to be written. What is returned always passes its check. -/
theorem disassemble_failsOnly (data : Bytes) (seeds : List Seed) (target : Option Target) {limit : Nat}
    (positive : 0 < limit) :
    (∀ e, disassemble data seeds target limit = .error e →
      (∃ error, e = .decode error) ∨
      (∃ error, e = .resolution error ∧
        (error.cause.reason = "DuplicateEntryPoint" ∨ error.cause.reason = "ScopeMismatch")) ∨
      (e = .numeral .unwritable ∧ ∃ entry, entry.isWritable = false ∧ 2 ≤ (seeds.filterMap Prod.fst).count entry) ∨
      (∃ error, e = .encode error ∧ error.cause.reason = "NoFixedPoint" ∧ limit ≤ data.length)) ∧
    ∀ s, disassemble data seeds target limit = .ok s → s.verify data limit = .ok () := by
  refine ⟨?_, fun s => verify_of_disassemble⟩
  unfold disassemble recover
  refine FailsOnly.bind (FailsOnly.mapError fun error _ => .inl ⟨error, rfl⟩) fun r lifted => ?_
  have recovered : Recovery.ofSeeds data seeds = .ok r := mapError_eq_ok.1 lifted
  obtain ⟨rfl, ordered⟩ := Recovery.ofSeeds_ordered recovered
  refine FailsOnly.bind ?_ fun s built => ?_
  · refine (Recovery.script_failsOnly recovered _).mono fun e failed => ?_
    rcases failed with ⟨error, same, cause⟩ | longKey
    · exact .inr (.inl ⟨error, same, (ResolutionCause.isEntry_iff _).1 cause⟩)
    · exact .inr (.inr (.inl longKey))
  · have scripts := Recovery.script_eq_ok built
    have laid pins := ordered.layout_failsOnly scripts pins positive
    refine ((pinFrom_failsOnly laid s.pinRounds []).bind fun _ _ => .of_ok rfl).mono fun e failed => ?_
    obtain ⟨⟨passes, label, site, span, same⟩, few⟩ := failed
    exact .inr (.inr (.inr ⟨_, same, rfl, few⟩))

theorem explore_return_twice : Explore.explore [2] [0, 0] [] = .ok [⟨0, 1, ⟨"return", [], none⟩⟩] := by
  rw [Explore.explore_visit (by decide) rfl rfl]
  change Explore.explore [2] [0] _ = _
  rw [Explore.explore_skip fun _ => rfl, Explore.explore]
  rfl

/-- One `return`, declared twice as the same event. -/
theorem disassemble_failsOnly_twice :
    ∃ e, disassemble [2] [(some (.event .prologue), 0), (some (.event .prologue), 0)] none 1 = .error e ∧
      0 < 1 ∧ ((∃ error, e = .decode error) ∨
        (∃ error, e = .resolution error ∧
          (error.cause.reason = "DuplicateEntryPoint" ∨ error.cause.reason = "ScopeMismatch")) ∨
        (e = .numeral .unwritable ∧ ∃ entry, entry.isWritable = false ∧
          2 ≤ [EntryPoint.event .prologue, .event .prologue].count entry) ∨
        (∃ error, e = .encode error ∧ error.cause.reason = "NoFixedPoint" ∧ 1 ≤ ([2] : Bytes).length)) := by
  have recovered : Recovery.ofSeeds [2] [(some (.event .prologue), 0), (some (.event .prologue), 0)] =
      .ok ⟨[2], [(.event, 0), (.event, 0)], [⟨0, 1, ⟨"return", [], none⟩⟩]⟩ :=
    Recovery.ofSeeds_eq_ok.2 ⟨_, _, rfl, explore_return_twice, by simp [Seed.kind]⟩
  have fails : (disassemble [2] [(some (.event .prologue), 0), (some (.event .prologue), 0)] none 1).isOk =
      false := by
    rw [disassemble, recovered]
    decide +kernel
  cases disassembled : disassemble [2] [(some (.event .prologue), 0), (some (.event .prologue), 0)] none 1 with
  | error e =>
    have positive : 0 < 1 := by decide
    exact ⟨e, rfl, positive, (disassemble_failsOnly _ _ _ positive).1 e disassembled⟩
  | ok s =>
    rw [disassembled] at fails
    cases fails

theorem disassemble_long_twice {key : Int} (long : Text.Numeral.isWritable key = false) :
    disassemble [2] [(some (.library key), 0), (some (.library key), 0)] (some .globals) =
      .error (.numeral .unwritable) := by
  obtain ⟨r, recovered⟩ : ∃ r, Recovery.ofSeeds [2] [(some (.library key), 0), (some (.library key), 0)] = .ok r :=
    ⟨_, Recovery.ofSeeds_eq_ok.2 ⟨_, _, rfl, explore_return_twice, rfl⟩⟩
  obtain ⟨s, target, noEntries, built⟩ := Recovery.exists_script_of_ofSeeds recovered .globals
  obtain ⟨name, named⟩ := Recovery.exists_nameAt?_of_seed recovered List.mem_cons_self
  have added (t : Script) : r.marks.addEntry t (.library key, 0) =
      (t.addEntry (.library key) name).mapError .ofResolution := by
    simp only [Marks.addEntry, show r.marks.nameAt? 0 = some name from named]
    rfl
  have first : s.addEntry (.library key) name = .ok { s with entries := [(.library key, name)] } :=
    addEntry_eq_ok.2 ⟨by simp [noEntries], by rw [target]; rfl, by rw [noEntries]; rfl⟩
  have second : { s with entries := [(.library key, name)] }.addEntry (.library key) name =
      .error ⟨.duplicateEntry (.library key), none⟩ := if_pos (by simp)
  have untold : Error.ofResolution ⟨.duplicateEntry (.library key), none⟩ = .numeral .unwritable :=
    if_neg (ne_true_of_eq_false long)
  have failed : r.script .globals [(.library key, 0), (.library key, 0)] = .error (.numeral .unwritable) := by
    rw [built, List.foldlM_cons, added, first]
    show [(EntryPoint.library key, 0)].foldlM r.marks.addEntry { s with entries := [(.library key, name)] } = _
    rw [List.foldlM_cons, added, second]
    exact congrArg Except.error untold
  have refused : recover r [(some (.library key), 0), (some (.library key), 0)] (some .globals) =
      .error (.numeral .unwritable) := failed
  rw [disassemble, recovered]
  show (recover r _ _ >>= fun s => s.minimizePins defaultPasses) = _
  rw [refused]
  rfl

def longKey : Int := 16 ^ 3572 - 1

theorem isWritable_longKey : Text.Numeral.isWritable longKey = false := by
  have long : 10 ^ Text.maxDecimalDigits ≤ longKey.natAbs := by decide +kernel
  refine decide_eq_false fun short => ?_
  have small := (Nat.length_toDigits_le_iff (by decide) (by decide)).1 short
  omega

theorem disassemble_longKey :
    disassemble [2] [(some (.library longKey), 0), (some (.library longKey), 0)] (some .globals) =
      .error (.numeral .unwritable) :=
  disassemble_long_twice isWritable_longKey

end Script

end EventScript
