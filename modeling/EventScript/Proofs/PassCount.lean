import EventScript.Proofs.Relaxation
import Mathlib.Algebra.BigOperators.Group.List.Basic
import Mathlib.Data.Nat.Find
import Mathlib.Logic.Function.Iterate

namespace EventScript

-- Sums start from the zero of the core library, whatever else is imported.
attribute [local instance (2000)] Zero.ofOfNat0

namespace Code

/-- The pointers whose width is left to the layout. -/
def freePointers (c : Code) : List Pointer := c.pointers.filter (!·.forced)

/-- Pass number `pass` finds the pointer narrower than it leaves it. -/
def WidenedIn (c : Code) (pass : Nat) (p : Pointer) : Prop := ∃ (index : Nat) (wider : Width),
  (widen^[pass - 1] c).pointers[index]? = some p ∧
    (widen^[pass] c).pointers[index]? = some { p with width := wider } ∧ p.width.bytes < wider.bytes

variable {c d : Code} {n : Nat}

def grown (addresses : List Nat) (p : Pointer) : Pointer :=
  if mustGrow addresses p then { p with width := p.width.next } else p

@[simp] theorem forced_grown (addresses : List Nat) (p : Pointer) : (grown addresses p).forced = p.forced := by
  unfold grown
  split <;> rfl

@[simp] theorem block_grown (addresses : List Nat) (p : Pointer) : (grown addresses p).block = p.block := by
  unfold grown
  split <;> rfl

theorem pointers_widen (c : Code) : c.widen.pointers = c.pointers.map (grown c.blockAddresses) :=
  pointers_mapPointers _ c

theorem passes_eq (grows : ∀ j < n, (widen^[j] c).growing ≠ []) (still : (widen^[n] c).growing = [])
    (limit : Nat) : c.passes limit = (List.range (min limit (n + 1))).map (widen^[·] c) := by
  induction limit generalizing c n with
  | zero => simp [passes]
  | succ limit ih =>
    cases n with
    | zero =>
      have empty : c.growing = [] := still
      have one : min (limit + 1) (0 + 1) = 1 := by omega
      rw [one]
      simp [passes, empty]
    | succ n =>
      have first : c.growing ≠ [] := grows 0 (by omega)
      have rest := ih (c := c.widen) (fun j bound => grows (j + 1) (by omega)) still
      have bound : min (limit + 1) (n + 1 + 1) = min limit (n + 1) + 1 := by omega
      rw [bound, List.range_succ_eq_map]
      simp only [passes, List.isEmpty_iff, first, if_false, rest, List.map_cons, List.map_map]
      rfl

theorem settle_of_le (grows : ∀ j < n, (widen^[j] c).growing ≠ []) (still : (widen^[n] c).growing = [])
    {limit : Nat} (enough : n < limit) : c.settle limit = .ok (widen^[n] c, n + 1) := by
  have bound : min limit (n + 1) = n + 1 := by omega
  simp [settle, passes_eq grows still, bound, List.range_succ, still]

theorem settle_of_lt (grows : ∀ j < n, (widen^[j] c).growing ≠ []) (still : (widen^[n] c).growing = [])
    {limit : Nat} (short : limit < n) : ∃ p, (widen^[limit] c).growing.getLast? = some p ∧
      c.settle (limit + 1) = .error (.encode ⟨.unsettled (limit + 1) p.label p.site, p.span⟩) := by
  have bound : min (limit + 1) (n + 1) = limit + 1 := by omega
  have growing := grows limit short
  cases last : (widen^[limit] c).growing.getLast? with
  | none => exact absurd (List.getLast?_eq_none_iff.1 last) growing
  | some p =>
    refine ⟨p, rfl, ?_⟩
    simp [settle, passes_eq grows still, bound, List.range_succ, last]

theorem widenedIn_of_growing {p : Pointer} (member : p ∈ (widen^[n] c).growing) :
    c.WidenedIn (n + 1) p := by
  obtain ⟨inCode, grow⟩ := List.mem_filter.1 member
  obtain ⟨index, here⟩ := List.mem_iff_getElem?.1 inCode
  refine ⟨index, p.width.next, here, ?_, ?_⟩
  · rw [Function.iterate_succ_apply', pointers_widen, List.getElem?_map, here]
    simp [grown, grow]
  · have less := room_widen grow
    have free : p.forced = false := by
      rw [mustGrow_iff] at grow
      exact grow.1
    revert less
    cases width : p.width <;> simp [room, free, width, Width.next, Width.bytes]

theorem slack_iterate (grows : ∀ j < n, (widen^[j] c).growing ≠ []) :
    (widen^[n] c).slack + n ≤ c.slack := by
  induction n with
  | zero => exact Nat.le_refl _
  | succ n ih =>
    have before := ih fun j bound => grows j (by omega)
    have less := slack_widen (grows n (by omega))
    rw [Function.iterate_succ_apply']
    omega

theorem exists_still (c : Code) :
    ∃ n, (∀ j < n, (widen^[j] c).growing ≠ []) ∧ (widen^[n] c).growing = [] := by
  have some : ∃ n, (widen^[n] c).growing = [] := by
    by_contra never
    have always : ∀ n, (widen^[n] c).growing ≠ [] := fun n still => never ⟨n, still⟩
    have more := slack_iterate (n := c.slack + 1) fun j _ => always j
    omega
  classical
  exact ⟨Nat.find some, fun j bound => Nat.find_min some bound, Nat.find_spec some⟩

theorem le_iterate (c : Code) (n : Nat) : c.Rewidth (· ≤ ·) (widen^[n] c) := by
  induction n with
  | zero => exact Rewidth.refl c
  | succ n ih =>
    rw [Function.iterate_succ_apply']
    exact ih.trans (le_widen _)

theorem tight_iterate (tight : c.Tight) (n : Nat) : (widen^[n] c).Tight := by
  induction n with
  | zero => exact tight
  | succ n ih =>
    rw [Function.iterate_succ_apply']
    exact ih.widen

theorem Narrow.slack_eq (narrow : c.Narrow) : c.slack = 2 * c.freePointers.length := by
  unfold slack freePointers
  unfold Narrow at narrow
  generalize c.pointers = ps at narrow
  induction ps with
  | nil => rfl
  | cons p ps ih =>
    have rest := ih fun q member => narrow q (List.mem_cons_of_mem _ member)
    rw [List.map_cons, List.sum_cons, rest]
    cases forced : p.forced with
    | true => simp [room, forced]
    | false =>
      have narrowest := narrow p List.mem_cons_self forced
      simp [room, forced, narrowest]
      omega

theorem size_growth_item {a b : ItemCode} (h : List.Forall₂ (Piece.Rewidth (· ≤ ·)) a b) :
    b.size ≤ a.size + 3 * a.pointers.countP (!·.forced) := by
  induction h with
  | nil => simp
  | @cons piece piece' pieces pieces' head _ ih =>
    have split (piece : Piece) (rest : ItemCode) : ItemCode.size (piece :: rest) = piece.size + rest.size := rfl
    rw [split, split]
    cases head with
    | same =>
      have more : (ItemCode.pointers pieces).countP (!·.forced) ≤
          (ItemCode.pointers (piece :: pieces)).countP (!·.forced) := by
        cases piece <;> simp [ItemCode.pointers, List.countP_cons]
      omega
    | pointer p width free _ =>
      have one : (ItemCode.pointers (.pointer p :: pieces)).countP (!·.forced) =
          (ItemCode.pointers pieces).countP (!·.forced) + 1 := by
        simp [ItemCode.pointers, free]
      have wide : ∀ w w' : Width, 1 + w'.bytes ≤ 1 + w.bytes + 3 := by
        intro w w'
        cases w <;> cases w' <;> decide
      have here : Piece.size (.pointer { p with width }) ≤ Piece.size (.pointer p) + 3 := wide p.width width
      omega

theorem size_growth (h : c.Rewidth (· ≤ ·) d) : d.size ≤ c.size + 3 * c.freePointers.length := by
  have items : List.Forall₂ (List.Forall₂ (Piece.Rewidth (· ≤ ·))) c.items d.items := List.rel_flatten h
  unfold size freePointers pointers
  rw [← List.countP_eq_length_filter]
  generalize c.items = xs, d.items = ys at items
  induction items with
  | nil => simp
  | cons head _ ih =>
    have here := size_growth_item head
    simp only [List.map_cons, List.sum_cons, List.flatMap_cons, List.countP_append]
    omega

theorem addressesFrom_growth {start start' : Nat} (le : start ≤ start') {sizes sizes' : List Nat}
    (h : List.Forall₂ (· ≤ ·) sizes sizes') (k : Nat) :
    (addressesFrom start' sizes').getD k 0 + (start + sizes.sum) ≤
      (addressesFrom start sizes).getD k 0 + (start' + sizes'.sum) := by
  induction h generalizing start start' k with
  | nil => simpa [addressesFrom] using le
  | @cons size size' sizes sizes' head tail ih =>
    have sums : sizes.sum ≤ sizes'.sum := List.Forall₂.sum_le_sum tail
    simp only [addressesFrom, List.sum_cons]
    cases k with
    | zero =>
      simp only [List.getD_cons_zero]
      omega
    | succ k =>
      have next : start + size ≤ start' + size' := by omega
      have rest := ih next k
      simp only [List.getD_cons_succ]
      omega

theorem sum_blockSizes (c : Code) : c.blockSizes.sum = c.size := by
  unfold blockSizes size items
  rw [List.map_flatten, List.sum_flatten, List.map_map]
  rfl

theorem target_growth (h : c.Rewidth (· ≤ ·) d) (p : Pointer) :
    target d.blockAddresses p ≤ target c.blockAddresses p + 3 * c.freePointers.length := by
  have moved := addressesFrom_growth (Nat.le_refl 0) h.blockSizes_le p.block
  rw [sum_blockSizes, sum_blockSizes] at moved
  have grown := size_growth h
  unfold target blockAddresses
  omega

/-- After the first pass a free pointer of small code is widened at most once more: what is still a byte leads to
an address below 256, which no growth moves past 64 KiB. -/
theorem room_grown_le (narrow : c.Narrow) (few : c.freePointers.length ≤ 21760) (above : c.Rewidth (· ≤ ·) d)
    (tight : d.Tight) {p q : Pointer} (inCode : p ∈ c.pointers) (inD : q ∈ d.pointers)
    (related : Piece.Rewidth (· ≤ ·) (.pointer (grown c.blockAddresses p)) (.pointer q)) :
    room (grown c.blockAddresses p) ≤ room q + if p.forced then 0 else 1 := by
  have same : q.forced = p.forced ∧ q.block = p.block := by
    rw [← forced_grown c.blockAddresses p, ← block_grown c.blockAddresses p]
    cases related <;> exact ⟨rfl, rfl⟩
  cases forced : p.forced with
  | true => simp [room, forced]
  | false =>
    have narrowest := narrow p inCode forced
    cases grow : mustGrow c.blockAddresses p with
    | true => simp [grown, grow, room, forced, narrowest, Width.next]
    | false =>
      have near : target c.blockAddresses p ≤ 255 := by
        by_contra far
        rw [← Bool.not_eq_true, mustGrow_iff, narrowest] at grow
        refine grow ⟨forced, ?_⟩
        unfold Width.ofAddress
        split_ifs <;> first | decide | omega
      have moved := target_growth above p
      have address : target d.blockAddresses q = target d.blockAddresses p := by rw [target, target, same.2]
      have bound := tight q inD (same.1.trans forced)
      have short : Width.ofAddress (target d.blockAddresses q) ≤ .word := by
        apply Width.ofAddress_le_of_lt
        rw [address]
        show _ < 2 ^ 16
        omega
      have fits := Width.le_trans bound short
      revert fits
      cases width : q.width <;>
        simp [grown, grow, room, forced, narrowest, same.1, width, Width.le_iff, Width.bytes]

theorem slack_widen_le (narrow : c.Narrow) (few : c.freePointers.length ≤ 21760) (above : c.widen.Rewidth (· ≤ ·) d)
    (tight : d.Tight) : c.widen.slack ≤ d.slack + c.freePointers.length := by
  have pairs := above.pointers
  rw [pointers_widen, List.forall₂_map_left_iff] at pairs
  have inside := forall₂_and_right.2 ⟨(List.forall₂_and_left _ _).2 ⟨fun p (member : p ∈ c.pointers) => member, pairs⟩,
    fun q (member : q ∈ d.pointers) => member⟩
  have each := inside.imp fun p q h => room_grown_le narrow few ((le_widen c).trans above) tight h.1.1 h.2 h.1.2
  unfold slack freePointers
  rw [← List.countP_eq_length_filter, pointers_widen, List.map_map]
  generalize c.pointers = ps, d.pointers = qs at each
  induction each with
  | nil => simp
  | @cons p q ps qs head _ ih =>
    simp only [List.map_cons, List.sum_cons, List.countP_cons, Function.comp_apply]
    cases forced : p.forced <;> simp [forced] at head ⊢ <;> omega

theorem Narrow.passes_le (narrow : c.Narrow) (few : c.freePointers.length ≤ 21760)
    (grows : ∀ j < n, (Code.widen^[j] c).growing ≠ []) : n ≤ c.freePointers.length + 1 := by
  cases n with
  | zero => omega
  | succ n =>
    have later := slack_iterate (c := c.widen) (n := n) fun j bound => grows (j + 1) (by omega)
    have once := slack_widen_le narrow few (le_iterate c.widen n) (tight_iterate narrow.tight.widen n)
    omega

end Code

namespace Script

variable {s : Script} {c : Code} {n limit : Nat}

theorem layout_of_enough (lowered : s.lower = .ok c) (grows : ∀ j < n, (Code.widen^[j] c).growing ≠ [])
    (still : (Code.widen^[n] c).growing = []) (enough : n < limit) :
    s.layout limit = .ok (.ofCode (Code.widen^[n] c) (n + 1)) := by
  apply layout_eq_ok.2
  exact ⟨c, _, _, lowered, Code.settle_of_le grows still enough, rfl⟩

theorem layout_of_short (lowered : s.lower = .ok c) (grows : ∀ j < n, (Code.widen^[j] c).growing ≠ [])
    (still : (Code.widen^[n] c).growing = []) (positive : 1 ≤ limit) (short : limit ≤ n) :
    ∃ q, c.WidenedIn limit q ∧ s.layout limit = .error (.encode ⟨.unsettled limit q.label q.site, q.span⟩) := by
  obtain ⟨before, rfl⟩ : ∃ before, limit = before + 1 := ⟨limit - 1, by omega⟩
  have less : before < n := by omega
  obtain ⟨q, last, failed⟩ := Code.settle_of_lt grows still less
  refine ⟨q, Code.widenedIn_of_growing (List.mem_of_getLast? last), ?_⟩
  unfold layout
  rw [lowered]
  show (c.settle (before + 1) >>= fun x => pure (Layout.ofCode x.1 x.2)) = _
  rw [failed]
  rfl

/-- The number of passes belongs to the script. A layout succeeds exactly if the bound is not below it, and is then
the same for all bounds. Below, it fails and names a pointer that the last pass has widened. -/
theorem layout_passes (lowered : s.lower = .ok c) :
    ∃ p l, 1 ≤ p ∧ p ≤ 2 * c.freePointers.length + 1 ∧ l.passes = p ∧ ∀ limit, 1 ≤ limit →
      ((∃ l', s.layout limit = .ok l') ↔ p ≤ limit) ∧
      (p ≤ limit → s.layout limit = .ok l) ∧
      (limit < p → ∃ q, c.WidenedIn limit q ∧
        s.layout limit = .error (.encode ⟨.unsettled limit q.label q.site, q.span⟩)) := by
  obtain ⟨n, grows, still⟩ := c.exists_still
  have room := Code.slack_iterate grows
  rw [(lower_narrow lowered).slack_eq] at room
  refine ⟨n + 1, .ofCode (Code.widen^[n] c) (n + 1), by omega, by omega, rfl, fun limit positive => ⟨⟨?_, ?_⟩, ?_, ?_⟩⟩
  · intro succeeds
    by_contra short
    obtain ⟨q, -, failed⟩ := layout_of_short lowered grows still positive (by omega)
    obtain ⟨l', laid⟩ := succeeds
    rw [failed] at laid
    cases laid
  · intro enough
    exact ⟨_, layout_of_enough lowered grows still enough⟩
  · intro enough
    exact layout_of_enough lowered grows still enough
  · intro short
    exact layout_of_short lowered grows still positive (by omega)

/-- A jump over three hundred bytes takes two passes; one pass is too few and names the jump. -/
theorem layout_passes_farJump : farJump.lower = .ok (farJumpCode .byte) ∧
    ∃ l, l.passes = 2 ∧ l.size = 306 ∧ ∀ limit, 1 ≤ limit →
      ((∃ l', farJump.layout limit = .ok l') ↔ 2 ≤ limit) ∧ (2 ≤ limit → farJump.layout limit = .ok l) ∧
      (limit < 2 → ∃ q, (farJumpCode .byte).WidenedIn limit q ∧ farJump.layout limit =
        .error (.encode ⟨.unsettled limit q.label q.site, q.span⟩)) := by
  have lowered : farJump.lower = .ok (farJumpCode .byte) := rfl
  obtain ⟨p, l, positive, bounded, passes, each⟩ := layout_passes lowered
  have few : p ≤ 64 := by
    have free : (farJumpCode .byte).freePointers.length = 1 := rfl
    omega
  have laid := (each 64 (by omega)).2.1 few
  have known : (farJump.layout 64).toOption.map (fun l => (l.passes, l.size)) = some (2, 306) := by decide +kernel
  rw [laid] at known
  obtain ⟨two, size⟩ := Prod.mk.inj (Option.some.inj known)
  rw [← passes.symm.trans two]
  exact ⟨lowered, l, passes, size, each⟩

end Script

end EventScript
