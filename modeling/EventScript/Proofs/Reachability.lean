import EventScript.Proofs.Reassembly

namespace EventScript

namespace Decoded

variable {data : Bytes} {d e : Decoded}

theorem mem_next {t : Nat} : t ∈ d.next ↔
    (d.instruction.endsFlow = false ∧ t = d.stop) ∨ ∃ kind, (kind, t) ∈ d.instruction.codeTargets := by
  unfold next
  rw [List.mem_append, List.mem_reverse, List.mem_map]
  refine or_congr ?_ ?_
  · cases d.instruction.endsFlow <;> simp
  · simp

theorem Valid.eq_of_offset (valid : d.Valid data) (valid' : e.Valid data) (same : d.offset = e.offset) : d = e := by
  obtain ⟨offset, size, instruction⟩ := d
  obtain ⟨_, size', instruction'⟩ := e
  obtain rfl : offset = _ := same
  have decoded := valid.decoded.symm.trans valid'.decoded
  cases decoded
  rfl

theorem Valid.apart_iff (valid : d.Valid data) (valid' : e.Valid data) :
    d.Apart e ↔ ¬ ∃ b, d.covers b = true ∧ e.covers b = true := by
  have nonempty := valid.lt_stop
  have nonempty' := valid'.lt_stop
  simp only [covers_iff, Apart]
  constructor
  · rintro apart ⟨b, inD, inE⟩
    omega
  · intro disjoint
    by_contra overlapping
    exact disjoint ⟨max d.offset e.offset, by omega, by omega⟩

theorem exists_decoded (data : Bytes) (P : Nat → Prop) : ∃ ds : List Decoded,
    (∀ d, d ∈ ds ↔ d.Valid data ∧ P d.offset) ∧ ds.Pairwise fun d e => d.offset ≠ e.offset := by
  classical
  let decodedAt (p : Nat) : Option Decoded :=
    if P p then (Instruction.decode data p).toOption.map fun found => ⟨p, found.2, found.1⟩ else none
  have decodedAt_eq {p : Nat} {d : Decoded} : decodedAt p = some d ↔
      P p ∧ d.offset = p ∧ Instruction.decode data p = .ok (d.instruction, d.size) := by
    simp only [decodedAt, Option.ite_none_right_eq_some, Option.map_eq_some_iff, Prod.exists]
    refine and_congr_right fun _ => ?_
    cases Instruction.decode data p with
    | error e => simp [Except.toOption]
    | ok result =>
      obtain ⟨i, size⟩ := result
      obtain ⟨offset, size', i'⟩ := d
      simp [Except.toOption, and_comm, eq_comm]
  refine ⟨(List.range data.length).filterMap decodedAt, fun d => ?_, ?_⟩
  · simp only [List.mem_filterMap, List.mem_range, decodedAt_eq]
    constructor
    · rintro ⟨p, inside, chosen, rfl, decoded⟩
      exact ⟨⟨inside, decoded⟩, chosen⟩
    · rintro ⟨⟨inside, decoded⟩, chosen⟩
      exact ⟨d.offset, inside, chosen, rfl, decoded⟩
  · refine List.pairwise_filterMap.2 (List.nodup_range.imp fun {p q} different d isD e isE same => ?_)
    exact different ((decodedAt_eq.1 isD).2.1.symm.trans (same.trans (decodedAt_eq.1 isE).2.1))

end Decoded

theorem Explore.explore_induction {data : Bytes} {P : Nat → Prop}
    (step : ∀ d : Decoded, d.Valid data → P d.offset → ∀ t ∈ d.next, P t)
    {stack : List Nat} {found found' : List Decoded} (stacked : ∀ t ∈ stack, P t) (before : ∀ d ∈ found, P d.offset)
    (explored : explore data stack found = .ok found') : ∀ d ∈ found', P d.offset := by
  fun_induction explore data stack found with
  | case1 =>
    cases explored
    exact before
  | case2 found offset rest here ih =>
    obtain ⟨⟨i, size⟩, visited, explored⟩ := bind_eq_ok.1 explored
    obtain ⟨holds, others⟩ := List.forall_mem_cons.1 stacked
    have valid : Decoded.Valid data ⟨offset, size, i⟩ := ⟨here.1, (visit_eq_ok.1 visited).1⟩
    refine ih i size (fun t inStack => ?_) (List.forall_mem_cons.2 ⟨holds, before⟩) explored
    rcases List.mem_append.1 inStack with isNext | later
    · exact step _ valid holds t isNext
    · exact others t later
  | case3 found offset rest _ ih => exact ih (List.forall_mem_cons.1 stacked).2 before explored

namespace Recovery

/-- Reading that starts at the seeds gets to the offset: it goes on after an instruction that does not
end the flow, and it follows all that leads to code. -/
inductive Reachable (data : Bytes) (seeds : List Seed) : Nat → Prop
  | seed {entry : Option EntryPoint} {p : Nat} (given : (entry, (p : Int)) ∈ seeds) : Reachable data seeds p
  | next {p size : Nat} {i : Instruction} (reached : Reachable data seeds p) (inside : p < data.length)
    (decoded : Instruction.decode data p = .ok (i, size)) (goesOn : i.endsFlow = false) :
    Reachable data seeds (p + size)
  | target {p size t : Nat} {i : Instruction} {kind : LabelKind} (reached : Reachable data seeds p)
    (inside : p < data.length) (decoded : Instruction.decode data p = .ok (i, size))
    (leads : (kind, t) ∈ i.codeTargets) : Reachable data seeds t

/-- What keeps a buffer from being read from the seeds on. -/
inductive Unreadable (data : Bytes) (seeds : List Seed) : Prop
  | outside {seed : Seed} (given : seed ∈ seeds) (outside : seed.2 < 0 ∨ data.length < seed.2)
  | undecoded {p : Nat} {e : DecodeError} (reached : Reachable data seeds p) (inside : p < data.length)
    (failed : Instruction.decode data p = .error e)
  | overlap {d e : Decoded} (valid : d.Valid data) (valid' : e.Valid data)
    (reached : Reachable data seeds d.offset) (reached' : Reachable data seeds e.offset)
    (different : d.offset ≠ e.offset) (shared : ∃ b, d.covers b = true ∧ e.covers b = true)

variable {data : Bytes} {seeds : List Seed} {starts : Marks} {r : Recovery}

theorem Reachable.of_mem_next {d : Decoded} (valid : d.Valid data) (reached : Reachable data seeds d.offset)
    {t : Nat} (isNext : t ∈ d.next) : Reachable data seeds t := by
  rcases Decoded.mem_next.1 isNext with ⟨goesOn, rfl⟩ | ⟨kind, leads⟩
  · exact .next reached valid.inside valid.decoded goesOn
  · exact .target reached valid.inside valid.decoded leads

theorem exists_check_iff : (∃ starts, seeds.mapM (Seed.check data.length) = .ok starts) ↔
    ∀ seed ∈ seeds, 0 ≤ seed.2 ∧ seed.2 ≤ data.length := by
  constructor
  · rintro ⟨starts, checked⟩ seed member
    obtain ⟨mark, -, isMark⟩ := exists_right_of_mem (mapM_eq_ok.1 checked) member
    exact (check_eq_ok.1 isMark).1
  · intro inside
    exact exists_mapM fun seed member => ⟨_, check_eq_ok.2 ⟨inside seed member, rfl⟩⟩

theorem mem_stack (checked : seeds.mapM (Seed.check data.length) = .ok starts) {t : Nat} :
    t ∈ (starts.map (·.2)).reverse ↔ ∃ entry, (entry, (t : Int)) ∈ seeds := by
  rw [List.mem_reverse, List.mem_map]
  constructor
  · rintro ⟨mark, inStarts, rfl⟩
    obtain ⟨seed, member, isMark⟩ := exists_left_of_mem (mapM_eq_ok.1 checked) inStarts
    obtain ⟨⟨nonneg, -⟩, rfl⟩ := check_eq_ok.1 isMark
    exact ⟨seed.1, by rwa [Int.toNat_of_nonneg nonneg]⟩
  · rintro ⟨entry, member⟩
    obtain ⟨mark, inStarts, isMark⟩ := exists_right_of_mem (mapM_eq_ok.1 checked) member
    obtain ⟨-, rfl⟩ := check_eq_ok.1 isMark
    exact ⟨_, inStarts, Int.toNat_natCast t⟩

theorem mem_sorted {found : List Decoded} {d : Decoded} :
    d ∈ (found.mergeSort fun a b => a.offset ≤ b.offset) ↔ d ∈ found :=
  (List.mergeSort_perm ..).mem_iff

theorem reachable_of_mem (recovered : ofSeeds data seeds = .ok r) {d : Decoded} (member : d ∈ r.code) :
    Reachable data seeds d.offset := by
  obtain ⟨starts, found, checked, explored, rfl⟩ := ofSeeds_eq_ok.1 recovered
  refine Explore.explore_induction (fun d valid reached t => reached.of_mem_next valid) (fun t inStack => ?_)
    (by simp) explored d (mem_sorted.1 member)
  obtain ⟨entry, given⟩ := (mem_stack checked).1 inStack
  exact .seed given

theorem exists_mem_of_reachable (recovered : ofSeeds data seeds = .ok r) {p : Nat} (reached : Reachable data seeds p)
    (before : p < data.length) : ∃ d ∈ r.code, d.offset = p := by
  obtain ⟨starts, found, checked, explored, rfl⟩ := ofSeeds_eq_ok.1 recovered
  have sound : Explore.Sound data found := Explore.explore_sound ⟨by simp, .nil⟩ explored
  simp only [mem_sorted]
  -- Whatever follows an instruction that was found is found as well.
  have closed {p t size : Nat} {i : Instruction} (here : p < data.length → ∃ d ∈ found, d.offset = p)
      (inside : p < data.length) (decoded : Instruction.decode data p = .ok (i, size))
      (isNext : t ∈ Decoded.next ⟨p, size, i⟩) (before : t < data.length) : ∃ d ∈ found, d.offset = t := by
    obtain ⟨d, inFound, same⟩ := here inside
    have isFound : d = ⟨p, size, i⟩ := (sound.each d inFound).eq_of_offset ⟨inside, decoded⟩ same
    rcases Explore.explore_closed explored d inFound with none | leads
    · exact absurd none List.not_mem_nil
    · exact leads t (isFound ▸ isNext) before
  induction reached with
  | seed given => exact Explore.explore_complete explored _ ((mem_stack checked).2 ⟨_, given⟩) before
  | next _ inside decoded goesOn ih =>
    exact closed ih inside decoded (Decoded.mem_next.2 (.inl ⟨goesOn, rfl⟩)) before
  | target _ inside decoded leads ih =>
    exact closed ih inside decoded (Decoded.mem_next.2 (.inr ⟨_, leads⟩)) before

/-- The instructions are those that can be decoded where reading gets to. -/
theorem mem_code_iff (recovered : ofSeeds data seeds = .ok r) {d : Decoded} :
    d ∈ r.code ↔ d.Valid data ∧ Reachable data seeds d.offset := by
  obtain ⟨same, ordered⟩ := ofSeeds_ordered recovered
  have each : ∀ d ∈ r.code, d.Valid data := same ▸ ordered.each
  constructor
  · intro member
    exact ⟨each d member, reachable_of_mem recovered member⟩
  · rintro ⟨valid, reached⟩
    obtain ⟨e, member, same⟩ := exists_mem_of_reachable recovered reached valid.inside
    exact (each e member).eq_of_offset valid same ▸ member

theorem apart_of_ofSeeds (recovered : ofSeeds data seeds = .ok r) : r.code.Pairwise Decoded.Apart :=
  (ofSeeds_ordered recovered).2.ordered.imp .inl

theorem not_unreadable_of_ofSeeds (recovered : ofSeeds data seeds = .ok r) : ¬ Unreadable data seeds := by
  intro unreadable
  cases unreadable with
  | outside given outside =>
    obtain ⟨starts, found, checked, -⟩ := ofSeeds_eq_ok.1 recovered
    have inside := exists_check_iff.1 ⟨starts, checked⟩ _ given
    omega
  | undecoded reached inside failed =>
    obtain ⟨d, member, rfl⟩ := exists_mem_of_reachable recovered reached inside
    have decoded := ((mem_code_iff recovered).1 member).1.decoded
    rw [failed] at decoded
    cases decoded
  | overlap valid valid' reached reached' different shared =>
    have inD := (mem_code_iff recovered).2 ⟨valid, reached⟩
    have inE := (mem_code_iff recovered).2 ⟨valid', reached'⟩
    have apart := (apart_of_ofSeeds recovered).forall inD inE (ne_of_apply_ne _ different)
    exact (valid.apart_iff valid').1 apart shared

theorem exists_ofSeeds (readable : ¬ Unreadable data seeds) : ∃ r, ofSeeds data seeds = .ok r := by
  obtain ⟨starts, checked⟩ : ∃ starts, seeds.mapM (Seed.check data.length) = .ok starts := by
    refine exists_check_iff.2 fun seed given => ?_
    by_contra outside
    exact readable (.outside given (by omega))
  have decodes {p : Nat} (reached : Reachable data seeds p) (inside : p < data.length) :
      ∃ d : Decoded, d.Valid data ∧ d.offset = p := by
    cases decoded : Instruction.decode data p with
    | error e => exact absurd (.undecoded reached inside decoded) readable
    | ok result => exact ⟨⟨p, result.2, result.1⟩, ⟨inside, decoded⟩, rfl⟩
  obtain ⟨ds, all, distinct⟩ := Decoded.exists_decoded data (Reachable data seeds)
  have complete {t : Nat} (reached : Reachable data seeds t) (inside : t < data.length) :
      ∃ e ∈ ds, e.offset = t := by
    obtain ⟨e, valid, rfl⟩ := decodes reached inside
    exact ⟨e, (all e).2 ⟨valid, reached⟩, rfl⟩
  have sound : Explore.Sound data ds := by
    refine ⟨fun d member => ((all d).1 member).1, distinct.imp_of_mem fun {d e} inD inE different => ?_⟩
    obtain ⟨valid, reached⟩ := (all d).1 inD
    obtain ⟨valid', reached'⟩ := (all e).1 inE
    refine (valid.apart_iff valid').2 fun shared => readable ?_
    exact .overlap valid valid' reached reached' different shared
  have closed : ∀ d ∈ ds, ∀ t ∈ d.next, t < data.length → ∃ e ∈ ds, e.offset = t := by
    intro d member t isNext
    obtain ⟨valid, reached⟩ := (all d).1 member
    exact complete (reached.of_mem_next valid isNext)
  have stacked : ∀ t ∈ (starts.map (·.2)).reverse, t < data.length → ∃ e ∈ ds, e.offset = t := by
    intro t inStack
    obtain ⟨entry, given⟩ := (mem_stack checked).1 inStack
    exact complete (.seed given)
  have nothing : ∀ d ∈ ([] : List Decoded), d ∈ ds := by simp
  obtain ⟨found, explored, -⟩ := Explore.exists_explore sound closed nothing stacked
  exact ⟨_, ofSeeds_eq_ok.2 ⟨starts, found, checked, explored, rfl⟩⟩

end Recovery

end EventScript
