import EventScript.Proofs.Instructions
import EventScript.Recovery.Structure

namespace EventScript

/-- An instruction takes at least one byte and lies within the buffer. -/
theorem Instruction.decode_bounds {data : Bytes} {offset n : Nat} {i : Instruction}
    (decoded : Instruction.decode data offset = .ok (i, n)) : 0 < n ∧ offset + n ≤ data.length := by
  obtain ⟨-, code, bs, lowered, emitted, rfl, inside⟩ := (Instruction.decode_eq_ok {} []).1 decoded
  obtain ⟨c, -, -, code', -, rfl⟩ := Instruction.lower_eq_ok.1 lowered
  obtain ⟨_, rest, rfl, ⟨⟩, -⟩ := ItemCode.emit_cons.1 emitted
  have fits := inside.length_le
  simp only [List.length_append, List.length_singleton, List.length_drop] at fits ⊢
  omega

namespace Decoded

/-- The instruction was read at its offset. -/
structure Valid (data : Bytes) (d : Decoded) : Prop where
  inside : d.offset < data.length
  decoded : Instruction.decode data d.offset = .ok (d.instruction, d.size)

theorem Valid.lt_stop {data : Bytes} {d : Decoded} (valid : d.Valid data) : d.offset < d.stop :=
  Nat.lt_add_of_pos_right (Instruction.decode_bounds valid.decoded).1

theorem Valid.stop_le {data : Bytes} {d : Decoded} (valid : d.Valid data) : d.stop ≤ data.length :=
  (Instruction.decode_bounds valid.decoded).2

/-- The instructions share no byte. -/
def Apart (d e : Decoded) : Prop := d.stop ≤ e.offset ∨ e.stop ≤ d.offset

theorem Apart.symm {d e : Decoded} (apart : d.Apart e) : e.Apart d := Or.symm apart

instance : Std.Symm Apart := ⟨fun _ _ => Apart.symm⟩

theorem covers_iff {d : Decoded} {offset : Nat} :
    d.covers offset = true ↔ d.offset ≤ offset ∧ offset < d.stop := by
  simp [covers]

end Decoded

namespace Explore

variable {data : Bytes} {found found' : List Decoded} {offset size : Nat} {i : Instruction}

theorem owner?_eq_none : owner? found offset = none ↔ ∀ d ∈ found, ¬ d.covers offset = true := by
  simp [owner?]

theorem overlap?_eq_none :
    overlap? found offset size = none ↔
      ∀ b, offset ≤ b → b < offset + size → ∀ d ∈ found, ¬ d.covers b = true := by
  simp only [overlap?, List.findSome?_eq_none_iff, Option.map_eq_none_iff, owner?_eq_none,
    List.mem_range'_1]
  exact ⟨fun h b low high => h b ⟨low, high⟩, fun h b bound => h b bound.1 bound.2⟩

theorem visit_eq_ok :
    visit data found offset = .ok (i, size) ↔ Instruction.decode data offset = .ok (i, size) ∧
      ∀ d ∈ found, ∀ b, offset ≤ b → b < offset + size → ¬ d.covers b = true := by
  have positive (decoded : Instruction.decode data offset = .ok (i, size)) : 0 < size :=
    (Instruction.decode_bounds decoded).1
  unfold visit
  cases owned : owner? found offset with
  | some d =>
    refine iff_of_false (fun h => ?_) fun ⟨decoded, free⟩ => ?_
    · cases h
    · have := positive decoded
      exact free d (List.mem_of_find?_eq_some owned) offset le_rfl (by omega)
        (by simpa using List.find?_some owned)
  | none =>
    simp only [bind_eq_ok, Prod.exists]
    constructor
    · rintro ⟨i', size', decoded, h⟩
      cases overlaps : overlap? found offset size' with
      | some hit =>
        rw [overlaps] at h
        cases h
      | none =>
        rw [overlaps] at h
        cases h
        exact ⟨decoded, fun d member b low high => overlap?_eq_none.1 overlaps b low high d member⟩
    · rintro ⟨decoded, free⟩
      have clear : overlap? found offset size = none :=
        overlap?_eq_none.2 fun b low high d member => free d member b low high
      exact ⟨i, size, decoded, by rw [clear]; rfl⟩

/-- What was found was decoded where it stands and shares no byte. -/
structure Sound (data : Bytes) (found : List Decoded) : Prop where
  each : ∀ d ∈ found, d.Valid data
  apart : found.Pairwise Decoded.Apart

theorem Sound.cons {d : Decoded} (sound : Sound data found) (inside : d.offset < data.length)
    (visited : visit data found d.offset = .ok (d.instruction, d.size)) : Sound data (d :: found) := by
  obtain ⟨decoded, free⟩ := visit_eq_ok.1 visited
  have valid : d.Valid data := ⟨inside, decoded⟩
  refine ⟨List.forall_mem_cons.2 ⟨valid, sound.each⟩, List.pairwise_cons.2 ⟨fun e member => ?_, sound.apart⟩⟩
  by_contra overlapping
  -- Either interval starts within the other.
  have nonempty := valid.lt_stop
  have nonempty' := (sound.each e member).lt_stop
  unfold Decoded.Apart at overlapping
  have shared := free e member (max d.offset e.offset) (le_max_left ..)
  rw [Decoded.covers_iff] at shared
  unfold Decoded.stop at *
  omega

/-- An offset past the end, or one where an instruction was found, adds nothing. -/
theorem explore_skip {rest : List Nat} (known : offset < data.length → isFound found offset = true) :
    explore data (offset :: rest) found = explore data rest found := by
  rw [explore, if_neg]
  rintro ⟨inside, unknown⟩
  simp [known inside] at unknown

theorem explore_visit {rest : List Nat} (inside : offset < data.length)
    (unknown : isFound found offset = false) (visited : visit data found offset = .ok (i, size)) :
    explore data (offset :: rest) found =
      explore data (Decoded.next ⟨offset, size, i⟩ ++ rest) (⟨offset, size, i⟩ :: found) := by
  rw [explore, if_pos ⟨inside, unknown⟩, visited]
  rfl

theorem explore_sound {stack : List Nat} (sound : Sound data found)
    (explored : explore data stack found = .ok found') : Sound data found' := by
  fun_induction explore data stack found with
  | case1 => cases explored; exact sound
  | case2 found offset rest here ih =>
    obtain ⟨⟨i, size⟩, visited, explored⟩ := bind_eq_ok.1 explored
    exact ih i size (sound.cons here.1 visited) explored
  | case3 found offset rest _ ih => exact ih sound explored

theorem explore_subset {stack : List Nat} (explored : explore data stack found = .ok found') :
    ∀ d ∈ found, d ∈ found' := by
  fun_induction explore data stack found with
  | case1 =>
    cases explored
    exact fun _ member => member
  | case2 found offset rest here ih =>
    obtain ⟨⟨i, size⟩, -, explored⟩ := bind_eq_ok.1 explored
    exact fun d member => ih i size explored d (List.mem_cons_of_mem _ member)
  | case3 found offset rest _ ih => exact ih explored

/-- Every offset on the stack is read. -/
theorem explore_complete {stack : List Nat} (explored : explore data stack found = .ok found') :
    ∀ offset ∈ stack, offset < data.length → ∃ d ∈ found', d.offset = offset := by
  fun_induction explore data stack found with
  | case1 => simp
  | case2 found offset rest here ih =>
    obtain ⟨⟨i, size⟩, -, explored⟩ := bind_eq_ok.1 explored
    intro o member inside
    rcases List.mem_cons.1 member with rfl | later
    · exact ⟨_, explore_subset explored _ List.mem_cons_self, rfl⟩
    · exact ih i size explored o (List.mem_append_right _ later) inside
  | case3 found offset rest skipped ih =>
    intro o member inside
    rcases List.mem_cons.1 member with rfl | later
    · have before : isFound found o = true := by simpa [inside] using skipped
      obtain ⟨d, inFound, same⟩ := List.any_eq_true.1 before
      exact ⟨d, explore_subset explored d inFound, by simpa using same⟩
    · exact ih explored o later inside

variable {ds : List Decoded} {stack : List Nat}

theorem visit_of_mem (sound : Sound data ds) (subset : ∀ d ∈ found, d ∈ ds) {d : Decoded} (member : d ∈ ds)
    (unknown : isFound found d.offset = false) : visit data found d.offset = .ok (d.instruction, d.size) := by
  refine visit_eq_ok.2 ⟨(sound.each d member).decoded, fun e inFound b low high covered => ?_⟩
  have different : d ≠ e := by
    rintro rfl
    simp only [isFound, List.any_eq_false, beq_iff_eq] at unknown
    exact unknown d inFound rfl
  have apart := sound.apart.forall member (subset e inFound) different
  rw [Decoded.covers_iff] at covered
  unfold Decoded.Apart Decoded.stop at *
  omega

/-- Reading that starts at instructions and leads to instructions finds no others. -/
theorem exists_explore (sound : Sound data ds)
    (closed : ∀ d ∈ ds, ∀ t ∈ d.next, t < data.length → ∃ e ∈ ds, e.offset = t)
    (subset : ∀ d ∈ found, d ∈ ds) (stacked : ∀ t ∈ stack, t < data.length → ∃ e ∈ ds, e.offset = t) :
    ∃ found', explore data stack found = .ok found' ∧ ∀ d ∈ found', d ∈ ds := by
  fun_induction explore data stack found with
  | case1 found => exact ⟨found, rfl, subset⟩
  | case2 found offset rest here ih =>
    obtain ⟨⟨d, member, rfl⟩, others⟩ := List.forall_mem_cons.1 stacked |>.imp_left (· here.1)
    rw [visit_of_mem sound subset member here.2]
    refine ih d.instruction d.size (List.forall_mem_cons.2 ⟨member, subset⟩) fun t inStack => ?_
    rcases List.mem_append.1 inStack with isNext | later
    · exact closed d member t isNext
    · exact others t later
  | case3 found offset rest _ ih =>
    exact ih subset (List.forall_mem_cons.1 stacked).2

/-- What follows an instruction that was found is found too. -/
theorem explore_closed (explored : explore data stack found = .ok found') : ∀ d ∈ found', d ∈ found ∨
    ∀ t ∈ d.next, t < data.length → ∃ e ∈ found', e.offset = t := by
  fun_induction explore data stack found with
  | case1 found =>
    cases explored
    exact fun d member => .inl member
  | case2 found offset rest here ih =>
    obtain ⟨⟨i, size⟩, -, explored⟩ := bind_eq_ok.1 explored
    intro d member
    rcases ih i size explored d member with inFound | leads
    · rcases List.mem_cons.1 inFound with rfl | before
      · exact .inr fun t isNext => explore_complete explored t (List.mem_append_left _ isNext)
      · exact .inl before
    · exact .inr leads
  | case3 found offset rest _ ih => exact ih explored

theorem Sound.nodup (sound : Sound data ds) : ds.Nodup := by
  refine sound.apart.imp_of_mem fun {d e} inD _ apart same => ?_
  have := (sound.each d inD).lt_stop
  subst same
  unfold Decoded.Apart at apart
  omega

theorem Sound.eq_of_offset (sound : Sound data ds) {d e : Decoded} (inD : d ∈ ds) (inE : e ∈ ds)
    (same : d.offset = e.offset) : d = e := by
  by_contra different
  have apart := sound.apart.forall inD inE different
  have := (sound.each d inD).lt_stop
  have := (sound.each e inE).lt_stop
  unfold Decoded.Apart at apart
  omega

end Explore

namespace Recovery

/-- The instructions of a recovery stand in address order and share no byte. -/
structure Ordered (r : Recovery) : Prop where
  each : ∀ d ∈ r.code, d.Valid r.data
  ordered : r.code.Pairwise fun d e => d.stop ≤ e.offset

theorem ordered_mergeSort {data : Bytes} {found : List Decoded} (sound : Explore.Sound data found) :
    (found.mergeSort fun a b => a.offset ≤ b.offset).Pairwise fun d e => d.stop ≤ e.offset := by
  have sorted : (found.mergeSort fun a b => a.offset ≤ b.offset).Pairwise fun a b =>
      decide (a.offset ≤ b.offset) = true :=
    List.pairwise_mergeSort (fun a b c => by simp; omega) (fun a b => by simp; omega) found
  have perm := List.mergeSort_perm found fun a b => decide (a.offset ≤ b.offset)
  have apart := (perm.pairwise_iff fun h => h.symm).2 sound.apart
  have valid : ∀ d ∈ found.mergeSort fun a b => decide (a.offset ≤ b.offset), d.Valid data :=
    fun d member => sound.each d (perm.mem_iff.1 member)
  refine List.Pairwise.imp_of_mem ?_ (sorted.and apart)
  rintro d e inD inE ⟨le, before | after⟩
  · exact before
  · have := (valid e inE).lt_stop
    simp only [decide_eq_true_eq] at le
    omega

theorem ofSeeds_eq_ok {data : Bytes} {seeds : List Seed} {r : Recovery} :
    ofSeeds data seeds = .ok r ↔ ∃ starts found, seeds.mapM (Seed.check data.length) = .ok starts ∧
      Explore.explore data (starts.map (·.2)).reverse [] = .ok found ∧
        r = ⟨data, starts, found.mergeSort fun a b => a.offset ≤ b.offset⟩ := by
  simp only [ofSeeds, bind_eq_ok, pure_eq_ok]
  constructor
  · rintro ⟨starts, checked, found, explored, rfl⟩
    exact ⟨starts, found, checked, explored, rfl⟩
  · rintro ⟨starts, found, checked, explored, rfl⟩
    exact ⟨starts, checked, found, explored, rfl⟩

theorem ofSeeds_ordered {data : Bytes} {seeds : List Seed} {r : Recovery}
    (recovered : ofSeeds data seeds = .ok r) : r.data = data ∧ r.Ordered := by
  obtain ⟨starts, found, -, explored, rfl⟩ := ofSeeds_eq_ok.1 recovered
  have sound := Explore.explore_sound ⟨by simp, .nil⟩ explored
  exact ⟨rfl, fun d member => sound.each d ((List.mergeSort_perm ..).mem_iff.1 member),
    ordered_mergeSort sound⟩

end Recovery

end EventScript
