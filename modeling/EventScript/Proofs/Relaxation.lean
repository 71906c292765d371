import EventScript.Bytecode.Layout
import EventScript.Proofs.Lowering
import Mathlib.Algebra.Order.BigOperators.Group.List
import Mathlib.Algebra.Order.Group.Nat
import Mathlib.Data.List.Forall2

/-!
Relaxation of tagged addresses.

Codes that differ in the widths of free pointers only are compared piece by piece. Narrower code has
smaller addresses, so a pointer that must grow has to grow in every consistent code above it. This
bounds each pass from above, and the last pass has the least consistent widths.
-/

namespace EventScript

-- Sums start from the zero of the core library, whatever else is imported.
attribute [local instance (2000)] Zero.ofOfNat0

theorem blockAddress_eq_ok {addresses : List Nat} {block address : Nat} :
    blockAddress addresses block = .ok address ↔ addresses[block]? = some address := by
  unfold blockAddress
  cases addresses[block]? <;> simp

theorem getElem?_of_lt {addresses : List Nat} {block : Nat} (inside : block < addresses.length) :
    addresses[block]? = some (addresses.getD block 0) := by
  rw [List.getD_eq_getElem?_getD, List.getElem?_eq_getElem inside, Option.getD_some]

theorem blockAddress_of_lt {addresses : List Nat} {block : Nat} (inside : block < addresses.length) :
    blockAddress addresses block = .ok (addresses.getD block 0) :=
  blockAddress_eq_ok.2 (getElem?_of_lt inside)

namespace Width

instance : LE Width := ⟨fun a b => a.bytes ≤ b.bytes⟩

theorem le_iff {a b : Width} : a ≤ b ↔ a.bytes ≤ b.bytes := Iff.rfl

instance (a b : Width) : Decidable (a ≤ b) := inferInstanceAs (Decidable (a.bytes ≤ b.bytes))

theorem bytes_le_bytes {a b : Width} (h : a ≤ b) : a.bytes ≤ b.bytes := h

theorem byte_le (w : Width) : byte ≤ w := by cases w <;> decide

theorem le_trans {a b c : Width} (first : a ≤ b) (second : b ≤ c) : a ≤ c :=
  Nat.le_trans first second

theorem le_antisymm {a b : Width} (below : a ≤ b) (above : b ≤ a) : a = b := by
  revert below above
  cases a <;> cases b <;> decide

theorem le_next (w : Width) : w ≤ w.next := by cases w <;> decide

theorem next_le_of_lt {a b : Width} (h : a.bytes < b.bytes) : a.next ≤ b := by
  revert h
  cases a <;> cases b <;> decide

theorem ofAddress_mono {a b : Nat} (h : a ≤ b) : ofAddress a ≤ ofAddress b := by
  have hi : (a : Int) ≤ b := by exact_mod_cast h
  unfold ofAddress
  split_ifs <;> first | decide | omega

theorem ofAddress_le_of_lt {a : Nat} {w : Width} (h : a < 2 ^ w.bits) : ofAddress a ≤ w := by
  cases w <;> simp only [bits, bytes, Nat.reduceMul, Nat.reducePow] at h <;> unfold ofAddress <;>
    split_ifs <;> first | decide | omega

end Width

namespace Piece

def LeadsWithin (count : Nat) : Piece → Prop
  | pointer q => q.block < count
  | blockWord block => block < count
  | _ => True

/-- Equal, but for the width of a pointer that is free to grow. -/
inductive Rewidth (rel : Width → Width → Prop) : Piece → Piece → Prop
  | same (piece : Piece) : Rewidth rel piece piece
  | pointer (p : Pointer) (width : Width) (free : p.forced = false) (related : rel p.width width) :
    Rewidth rel (.pointer p) (.pointer { p with width })

theorem Rewidth.size_le {a b : Piece} (h : a.Rewidth (· ≤ ·) b) : a.size ≤ b.size := by
  cases h with
  | same => exact Nat.le_refl _
  | pointer p width free related => exact Nat.add_le_add_left related 1

end Piece

theorem ItemCode.rewidth_pointers {rel : Width → Width → Prop} {a b : ItemCode}
    (h : List.Forall₂ (Piece.Rewidth rel) a b) :
    List.Forall₂ (fun p q : Pointer => Piece.Rewidth rel (.pointer p) (.pointer q))
      a.pointers b.pointers := by
  induction h with
  | nil => exact .nil
  | @cons piece _ _ _ head _ ih =>
    cases head with
    | same => cases piece <;> simpa [ItemCode.pointers, Piece.Rewidth.same] using ih
    | pointer p width free related =>
      simpa [ItemCode.pointers] using ⟨.pointer p width free related, ih⟩

theorem ItemCode.rewidth_size_le {a b : ItemCode}
    (h : List.Forall₂ (Piece.Rewidth (· ≤ ·)) a b) : a.size ≤ b.size :=
  List.Forall₂.sum_le_sum (List.rel_map (fun _ _ related => related.size_le) h)

theorem addressesFrom_mono {start start' : Nat} (le : start ≤ start') {sizes sizes' : List Nat}
    (h : List.Forall₂ (· ≤ ·) sizes sizes') :
    List.Forall₂ (· ≤ ·) (addressesFrom start sizes) (addressesFrom start' sizes') := by
  induction h generalizing start start' with
  | nil => exact .nil
  | cons head _ ih => exact .cons le (ih (Nat.add_le_add le head))

def Error.IsUnsettled (e : Error) : Prop :=
  ∃ passes label site span, e = .encode ⟨.unsettled passes label site, span⟩

namespace Code

theorem length_addressesFrom (start : Nat) (sizes : List Nat) :
    (addressesFrom start sizes).length = sizes.length := by
  induction sizes generalizing start with
  | nil => rfl
  | cons size sizes ih => simp [addressesFrom, ih]

theorem length_blockAddresses (c : Code) : c.blockAddresses.length = c.length := by
  rw [blockAddresses, length_addressesFrom, blockSizes, List.length_map]

/-- Code with the same pieces; the widths of its free pointers may differ. -/
def Rewidth (rel : Width → Width → Prop) (c d : Code) : Prop :=
  List.Forall₂ (List.Forall₂ (List.Forall₂ (Piece.Rewidth rel))) c d

/-- The address that a pointer leads to. A pointer that may grow always leads to a block. -/
def target (addresses : List Nat) (p : Pointer) : Nat := addresses.getD p.block 0

/-- Every free pointer holds the address of its target. -/
def Consistent (c : Code) : Prop :=
  ∀ p ∈ c.pointers, p.forced = false → target c.blockAddresses p < 2 ^ p.width.bits

instance (c : Code) : Decidable c.Consistent :=
  inferInstanceAs (Decidable (∀ p ∈ c.pointers, p.forced = false →
    target c.blockAddresses p < 2 ^ p.width.bits))

theorem Rewidth.refl {rel : Width → Width → Prop} (c : Code) : c.Rewidth rel c :=
  List.forall₂_same.2 fun _ _ => List.forall₂_same.2 fun _ _ =>
    List.forall₂_same.2 fun piece _ => .same piece

theorem Rewidth.trans {b c d : Code} (first : b.Rewidth (· ≤ ·) c) (second : c.Rewidth (· ≤ ·) d) :
    b.Rewidth (· ≤ ·) d := by
  have pieces : ∀ x y z : Piece, x.Rewidth (· ≤ ·) y → y.Rewidth (· ≤ ·) z →
      x.Rewidth (· ≤ ·) z := by
    intro x y z h k
    cases h with
    | same => exact k
    | pointer p width free related =>
      cases k with
      | same => exact .pointer p width free related
      | pointer _ width' _ related' => exact .pointer p width' free (Width.le_trans related related')
  have lift : ∀ {α : Type} {r : α → α → Prop}, (∀ x y z, r x y → r y z → r x z) →
      ∀ xs ys zs, List.Forall₂ r xs ys → List.Forall₂ r ys zs → List.Forall₂ r xs zs := by
    intro α r tr xs ys zs h k
    induction h generalizing zs with
    | nil => exact k
    | cons head _ ih =>
      cases k with
      | cons head' tail' => exact .cons (tr _ _ _ head head') (ih _ tail')
  exact lift (lift (lift pieces)) _ _ _ first second

theorem Rewidth.pointers {rel : Width → Width → Prop} {c d : Code} (h : c.Rewidth rel d) :
    List.Forall₂ (fun p q : Pointer => Piece.Rewidth rel (.pointer p) (.pointer q))
      c.pointers d.pointers :=
  List.rel_flatMap (List.rel_flatten h) fun _ _ => ItemCode.rewidth_pointers

theorem Rewidth.blockSizes_le {c d : Code} (h : c.Rewidth (· ≤ ·) d) :
    List.Forall₂ (· ≤ ·) c.blockSizes d.blockSizes :=
  List.rel_map (fun _ _ items => List.Forall₂.sum_le_sum
    (List.rel_map (fun _ _ related => ItemCode.rewidth_size_le related) items)) h

theorem Rewidth.blockAddresses_le {c d : Code} (h : c.Rewidth (· ≤ ·) d) :
    List.Forall₂ (· ≤ ·) c.blockAddresses d.blockAddresses :=
  addressesFrom_mono (Nat.le_refl 0) h.blockSizes_le

theorem Rewidth.size_le {c d : Code} (h : c.Rewidth (· ≤ ·) d) : c.size ≤ d.size :=
  List.Forall₂.sum_le_sum
    (List.rel_map (fun _ _ related => ItemCode.rewidth_size_le related) (List.rel_flatten h))

theorem mustGrow_iff {addresses : List Nat} {p : Pointer} : mustGrow addresses p = true ↔
    p.forced = false ∧ p.width.bytes < (Width.ofAddress (target addresses p)).bytes := by
  rw [mustGrow, Bool.and_eq_true, Bool.not_eq_true', target, List.getD_eq_getElem?_getD]
  refine and_congr_right fun _ => ?_
  cases addresses[p.block]? with
  | some address => simp
  | none =>
    -- The address 0 would fit a single byte.
    have fits : (Width.ofAddress 0).bytes ≤ p.width.bytes := p.width.byte_le
    simpa using fits

theorem target_mono {addresses addresses' : List Nat} (h : List.Forall₂ (· ≤ ·) addresses addresses')
    (p : Pointer) : target addresses p ≤ target addresses' p := by
  unfold target
  generalize p.block = block
  induction h generalizing block with
  | nil => exact Nat.le_refl _
  | cons head _ ih =>
    cases block with
    | zero => exact head
    | succ block => exact ih block
theorem mem_pointers {c : Code} {p : Pointer} :
    p ∈ c.pointers ↔ ∃ block ∈ c, ∃ item ∈ block, Piece.pointer p ∈ item := by
  simp only [pointers, items, ItemCode.pointers, List.mem_flatMap, List.mem_flatten,
    List.mem_filterMap]
  constructor
  · rintro ⟨item, ⟨block, inCode, inBlock⟩, piece, inItem, found⟩
    cases piece <;> simp only [Option.some.injEq, reduceCtorEq] at found
    exact ⟨block, inCode, item, inBlock, found ▸ inItem⟩
  · rintro ⟨block, inCode, item, inBlock, inItem⟩
    exact ⟨item, ⟨block, inCode, inBlock⟩, _, inItem, rfl⟩

/-- Changes pointers on the left of related code. The change may depend on the pointer that it is
related to. -/
theorem Rewidth.mapPointers {rel rel' : Width → Width → Prop} {c d : Code} {f : Pointer → Pointer}
    (h : c.Rewidth rel d)
    (change : ∀ p ∈ c.pointers, ∀ q ∈ d.pointers, Piece.Rewidth rel (.pointer p) (.pointer q) →
      Piece.Rewidth rel' (.pointer (f p)) (.pointer q)) :
    (c.mapPointers f).Rewidth rel' d := by
  have attach : ∀ {α : Type} {r : α → α → Prop} {xs ys : List α}, List.Forall₂ r xs ys →
      List.Forall₂ (fun x y => x ∈ xs ∧ y ∈ ys ∧ r x y) xs ys := by
    intro α r xs ys h
    refine (List.forall₂_and_left _ _).2 ⟨fun _ member => member, List.Forall₂.flip ?_⟩
    exact (List.forall₂_and_left _ _).2 ⟨fun _ member => member, h.flip⟩
  refine List.forall₂_map_left_iff.2 ((attach h).imp fun block block' hb => ?_)
  refine List.forall₂_map_left_iff.2 ((attach hb.2.2).imp fun item item' hi => ?_)
  refine List.forall₂_map_left_iff.2 ((attach hi.2.2).imp fun piece piece' hp => ?_)
  obtain ⟨inItem, inItem', related⟩ := hp
  cases piece with
  | pointer p =>
    obtain ⟨q, rfl⟩ : ∃ q, piece' = .pointer q := by cases related <;> exact ⟨_, rfl⟩
    exact change p (mem_pointers.2 ⟨block, hb.1, item, hi.1, inItem⟩) q
      (mem_pointers.2 ⟨block', hb.2.1, item', hi.2.1, inItem'⟩) related
  | _ => cases related; exact .same _

theorem widen_le {c d : Code} (h : c.Rewidth (· ≤ ·) d) (consistent : d.Consistent) :
    c.widen.Rewidth (· ≤ ·) d := by
  refine h.mapPointers fun p _ q inD related => ?_
  by_cases grow : mustGrow c.blockAddresses p = true
  · simp only [grow, ↓reduceIte]
    obtain ⟨free, tooFar⟩ := mustGrow_iff.1 grow
    have same : q = { p with width := q.width } := by cases related <;> rfl
    have targets : target c.blockAddresses p ≤ target d.blockAddresses q := by
      rw [same]
      exact target_mono h.blockAddresses_le p
    have fits : Width.ofAddress (target d.blockAddresses q) ≤ q.width :=
      Width.ofAddress_le_of_lt (consistent q inD (by rw [same]; exact free))
    have needed := Nat.le_trans (Width.bytes_le_bytes (Width.ofAddress_mono targets)) fits
    rw [same]
    exact .pointer { p with width := p.width.next } q.width free
      (Width.next_le_of_lt (Nat.lt_of_lt_of_le tooFar needed))
  · simp only [grow]
    exact related

theorem le_widen (c : Code) : c.Rewidth (· ≤ ·) c.widen := by
  refine List.forall₂_map_right_iff.2 (List.forall₂_same.2 fun block _ => ?_)
  refine List.forall₂_map_right_iff.2 (List.forall₂_same.2 fun item _ => ?_)
  refine List.forall₂_map_right_iff.2 (List.forall₂_same.2 fun piece _ => ?_)
  cases piece with
  | pointer p =>
    by_cases grow : mustGrow c.blockAddresses p = true
    · simp only [grow, ↓reduceIte]
      exact .pointer p p.width.next (mustGrow_iff.1 grow).1 p.width.le_next
    · simp only [grow]
      exact .same _
  | _ => exact .same _

def Tight (c : Code) : Prop :=
  ∀ p ∈ c.pointers, p.forced = false → p.width ≤ Width.ofAddress (target c.blockAddresses p)

theorem pointers_mapPointers (f : Pointer → Pointer) (c : Code) :
    (c.mapPointers f).pointers = c.pointers.map f := by
  unfold pointers items mapPointers
  rw [← List.map_flatten, List.flatMap_map, List.map_flatMap]
  refine congrArg (c.flatten.flatMap ·) (funext fun item => ?_)
  induction item with
  | nil => rfl
  | cons piece rest ih => cases piece <;> simpa [ItemCode.pointers] using ih

theorem mapPointers_id (c : Code) : c.mapPointers id = c := by
  refine (List.map_congr_left fun block _ => ?_).trans (List.map_id c)
  refine (List.map_congr_left fun item _ => ?_).trans (List.map_id block)
  refine (List.map_congr_left fun piece _ => ?_).trans (List.map_id item)
  cases piece <;> rfl

theorem Tight.widen {c : Code} (tight : c.Tight) : c.widen.Tight := by
  intro q inWide free
  rw [Code.widen, pointers_mapPointers, List.mem_map] at inWide
  obtain ⟨p, inCode, rfl⟩ := inWide
  have grown : ∀ p, Width.ofAddress (target c.blockAddresses p) ≤
      Width.ofAddress (target c.widen.blockAddresses p) :=
    fun p => Width.ofAddress_mono (target_mono c.le_widen.blockAddresses_le p)
  by_cases grow : mustGrow c.blockAddresses p = true
  · simp only [grow, ↓reduceIte]
    exact Width.le_trans (Width.next_le_of_lt (mustGrow_iff.1 grow).2) (grown p)
  · simp only [grow] at free ⊢
    exact Width.le_trans (tight p inCode free) (grown p)

theorem settle_eq_ok_succ {limit : Nat} {c d : Code} {n : Nat} :
    c.settle (limit + 1) = .ok (d, n) ↔
      (c.growing = [] ∧ d = c ∧ n = 1) ∨
      (c.growing ≠ [] ∧ ∃ m, c.widen.settle limit = .ok (d, m) ∧ n = m + 1) := by
  by_cases settled : c.growing = []
  · have run : c.passes (limit + 1) = [c] := by simp [passes, settled]
    simp [settle, run, settled, eq_comm]
  · have run : c.passes (limit + 1) = c :: c.widen.passes limit := by
      simp [passes, settled]
    cases rest : c.widen.passes limit with
    | nil =>
      obtain ⟨p, hp⟩ := Option.ne_none_iff_exists'.1 (mt List.getLast?_eq_none_iff.1 settled)
      simp [settle, run, rest, settled, hp]
    | cons first others =>
      cases last : (first :: others).getLast? with
      | none => simp at last
      | some e =>
        have same : (c :: first :: others).getLast? = some e := by
          rw [List.getLast?_cons_cons, last]
        simp only [settle, run, rest, last, same, settled, List.length_cons, ne_eq,
          not_false_eq_true, true_and, false_and, false_or]
        cases e.growing.getLast? <;> simp [eq_comm]

theorem settle_zero (c : Code) : c.settle 0 = .error (.fault .noPasses) := rfl

/-- Code that does not settle has a pointer that is still growing. -/
theorem settle_failsOnly (c : Code) {limit : Nat} (positive : 0 < limit) :
    FailsOnly Error.IsUnsettled (c.settle limit) := by
  obtain ⟨limit, rfl⟩ := Nat.exists_eq_succ_of_ne_zero positive.ne'
  unfold settle
  dsimp only
  split
  · rename_i empty
    rw [List.getLast?_eq_none_iff, passes] at empty
    split at empty <;> cases empty
  · split
    · exact .of_ok rfl
    · exact .error ⟨_, _, _, _, rfl⟩

theorem settle_induction {P : Code → Prop} (step : ∀ c, P c → P c.widen) {limit n : Nat}
    {c d : Code} (start : P c) (settled : c.settle limit = .ok (d, n)) : P d ∧ d.growing = [] := by
  induction limit generalizing c n with
  | zero => simp [settle_zero] at settled
  | succ limit ih =>
    rcases settle_eq_ok_succ.1 settled with ⟨still, rfl, -⟩ | ⟨-, m, rest, -⟩
    · exact ⟨start, still⟩
    · exact ih (step c start) rest

def room (p : Pointer) : Nat :=
  if p.forced then 0
  else match p.width with
    | .byte => 2
    | .word => 1
    | .long => 0

def slack (c : Code) : Nat := (c.pointers.map room).sum

theorem room_widen {addresses : List Nat} {p : Pointer} (grow : mustGrow addresses p = true) :
    room { p with width := p.width.next } < room p := by
  obtain ⟨free, tooFar⟩ := mustGrow_iff.1 grow
  cases narrow : p.width with
  | long =>
    have widest : ∀ w : Width, w.bytes ≤ Width.long.bytes := by intro w; cases w <;> decide
    rw [narrow] at tooFar
    exact absurd tooFar (Nat.not_lt.2 (widest _))
  | _ => simp [room, free, narrow, Width.next]

theorem slack_widen {c : Code} (growing : c.growing ≠ []) : c.widen.slack < c.slack := by
  unfold slack widen
  rw [pointers_mapPointers, List.map_map]
  obtain ⟨p, inGrowing⟩ := List.exists_mem_of_ne_nil _ growing
  obtain ⟨inCode, grow⟩ := List.mem_filter.1 inGrowing
  refine List.sum_lt_sum _ _ (fun q _ => ?_) ⟨p, inCode, ?_⟩
  · by_cases grow : mustGrow c.blockAddresses q = true
    · simpa [grow] using (room_widen grow).le
    · simp [grow]
  · simpa [grow] using room_widen grow

/-- One pass for every step that a pointer can grow, and one that grows none. -/
theorem exists_settle {limit : Nat} {c : Code} (enough : c.slack < limit) :
    ∃ d n, c.settle limit = .ok (d, n) := by
  induction limit generalizing c with
  | zero => omega
  | succ limit ih =>
    by_cases settled : c.growing = []
    · exact ⟨c, 1, settle_eq_ok_succ.2 (.inl ⟨settled, rfl, rfl⟩)⟩
    · have less := slack_widen settled
      obtain ⟨d, n, rest⟩ := ih (c := c.widen) (by omega)
      exact ⟨d, n + 1, settle_eq_ok_succ.2 (.inr ⟨settled, n, rest, rfl⟩)⟩

def Narrow (c : Code) : Prop := ∀ p ∈ c.pointers, p.forced = false → p.width = .byte

theorem Narrow.tight {c : Code} (narrow : c.Narrow) : c.Tight := by
  intro p inCode free
  rw [narrow p inCode free]
  exact Width.byte_le _

theorem Narrow.le {c d : Code} (narrow : c.Narrow) (h : c.Rewidth (fun _ _ => True) d) :
    c.Rewidth (· ≤ ·) d := by
  rw [← c.mapPointers_id]
  refine h.mapPointers fun p inCode q _ related => ?_
  cases related with
  | same => exact .same _
  | pointer _ width free _ =>
    refine .pointer p width free ?_
    rw [narrow p inCode free]
    exact Width.byte_le _

/-- Each free pointer of settled code has exactly the width that its target asks for. -/
theorem settle_exact {limit n : Nat} {c d : Code} (narrow : c.Narrow)
    (settled : c.settle limit = .ok (d, n)) {p : Pointer} (inCode : p ∈ d.pointers)
    (free : p.forced = false) : p.width = Width.ofAddress (target d.blockAddresses p) := by
  obtain ⟨tight, still⟩ := settle_induction (P := Tight) (fun _ => Tight.widen) narrow.tight settled
  refine Width.le_antisymm (tight p inCode free) ?_
  by_contra tooFar
  have grows : p ∈ d.growing :=
    List.mem_filter.2 ⟨inCode, mustGrow_iff.2 ⟨free, by simpa [Width.le_iff] using tooFar⟩⟩
  simp [still] at grows

/-- Settled code lies below every consistent code with the same pieces. -/
theorem settle_le {limit n : Nat} {c d e : Code} (narrow : c.Narrow)
    (settled : c.settle limit = .ok (d, n)) (same : c.Rewidth (fun _ _ => True) e)
    (consistent : e.Consistent) : d.Rewidth (· ≤ ·) e :=
  (settle_induction (P := (Rewidth (· ≤ ·) · e)) (fun _ below => widen_le below consistent)
    (narrow.le same) settled).1

theorem settle_rewidth {limit n : Nat} {c d : Code} (settled : c.settle limit = .ok (d, n)) :
    c.Rewidth (· ≤ ·) d :=
  (settle_induction (P := c.Rewidth (· ≤ ·))
    (fun e below => below.trans e.le_widen) (Rewidth.refl c) settled).1

end Code

theorem Script.lower_narrow {s : Script} {c : Code} (lowered : s.lower = .ok c) : c.Narrow := by
  intro p inCode free
  obtain ⟨block, inCode, item, inBlock, inItem⟩ := Code.mem_pointers.1 inCode
  have fresh : p.Fresh s.labels := Script.lower_fresh (Script.lower_eq_ok.1 lowered).1 inCode inBlock inItem
  exact fresh.narrow free

/-- A pointer of settled code still leads to the block of its label. -/
theorem Script.settle_bound {s : Script} {c d : Code} {limit passes : Nat}
    (lowered : s.lower = .ok c) (settled : c.settle limit = .ok (d, passes)) {q : Pointer}
    (inCode : q ∈ d.pointers) :
    ∃ binding, s.labels.get? q.label = some binding ∧ q.block = binding.block := by
  obtain ⟨p, inLowered, related⟩ := exists_left_of_mem (Code.settle_rewidth settled).pointers inCode
  obtain ⟨block, inCode, item, inBlock, inItem⟩ := Code.mem_pointers.1 inLowered
  have fresh : p.Fresh s.labels := Script.lower_fresh (lower_eq_ok.1 lowered).1 inCode inBlock inItem
  cases related <;> exact fresh.bound

/-- All addresses in the code are those of its blocks. -/
def Code.IsPlaced (c : Code) : Prop := ∀ block ∈ c, ∀ item ∈ block, ∀ piece ∈ item, piece.LeadsWithin c.length

theorem Script.lower_placed {s : Script} {c : Code} (lowered : s.lowerBlocks = .ok c)
    (bound : ∀ name binding, s.labels.get? name = some binding → binding.block < s.blocks.length) : c.IsPlaced := by
  intro block inCode item inBlock piece inItem
  have fresh := Script.lower_fresh lowered inCode inBlock inItem
  rw [← (mapM_eq_ok.1 lowered).length_eq]
  cases piece with
  | pointer q =>
    obtain ⟨⟨binding, found, same⟩, -⟩ := fresh
    rw [Piece.LeadsWithin, same]
    exact bound q.label binding found
  | blockWord block =>
    obtain ⟨name, binding, found, rfl⟩ := fresh
    exact bound name binding found
  | _ => exact True.intro

theorem Code.IsPlaced.pointer {c : Code} (placed : c.IsPlaced) {p : Pointer} (inCode : p ∈ c.pointers) :
    p.block < c.length := by
  obtain ⟨block, inCode, item, inBlock, inItem⟩ := Code.mem_pointers.1 inCode
  exact placed block inCode item inBlock _ inItem

theorem Script.lower_of_bound {s : Script} {c : Code} (lowered : s.lowerBlocks = .ok c)
    (bound : ∀ name binding, s.labels.get? name = some binding → binding.block < s.blocks.length) :
    s.lower = .ok c :=
  Script.lower_eq_ok.2 ⟨lowered, fun _ inCode _ => (Script.lower_placed lowered bound).pointer inCode⟩

theorem Code.IsPlaced.rewidth {c d : Code} {rel : Width → Width → Prop} (placed : c.IsPlaced)
    (rewidth : c.Rewidth rel d) : d.IsPlaced := by
  intro block inCode item inBlock piece inItem
  obtain ⟨block', inCode', items⟩ := exists_left_of_mem rewidth inCode
  obtain ⟨item', inBlock', pieces⟩ := exists_left_of_mem items inBlock
  obtain ⟨piece', inItem', related⟩ := exists_left_of_mem pieces inItem
  have within := placed block' inCode' item' inBlock' piece' inItem'
  rw [← rewidth.length_eq]
  cases related <;> exact within

/-- A pointer of settled code that may grow leads to a block. -/
theorem Script.settle_placed {s : Script} {c d : Code} {limit passes : Nat}
    (lowered : s.lower = .ok c) (settled : c.settle limit = .ok (d, passes)) {q : Pointer}
    (inCode : q ∈ d.pointers) (free : q.forced = false) : q.block < d.blockAddresses.length := by
  have rewidth := Code.settle_rewidth settled
  obtain ⟨p, inLowered, related⟩ := exists_left_of_mem rewidth.pointers inCode
  have same : p.block = q.block ∧ p.forced = q.forced := by cases related <;> exact ⟨rfl, rfl⟩
  have inside := (lower_eq_ok.1 lowered).2 p inLowered (same.2.trans free)
  rwa [Code.length_blockAddresses, ← rewidth.length_eq, ← same.1]

theorem Script.layout_eq_ok {s : Script} {limit : Nat} {l : Layout} :
    s.layout limit = .ok l ↔ ∃ c d passes, s.lower = .ok c ∧ c.settle limit = .ok (d, passes) ∧
      Layout.ofCode d passes = l := by
  simp only [Script.layout, bind_eq_ok, pure_eq_ok, Prod.exists]
  constructor
  · rintro ⟨c, lowered, d, passes, settled, same⟩
    exact ⟨c, d, passes, lowered, settled, same⟩
  · rintro ⟨c, d, passes, lowered, settled, same⟩
    exact ⟨c, lowered, d, passes, settled, same⟩

namespace Layout

theorem fixups_ofCode (c : Code) (passes : Nat) :
    List.Forall₂ (fun p (f : Fixup) => f.label = p.label ∧ f.width = p.width)
      c.pointers (ofCode c passes).fixups := by
  have items : ∀ (items : List ItemCode) (number : Nat → Nat),
      List.Forall₂ (fun p (f : Fixup) => f.label = p.label ∧ f.width = p.width)
        (items.flatMap ItemCode.pointers)
        (items.mapIdx fun index item => item.pointers.map fun p =>
          (⟨number index, p.site.operand, p.label, p.width⟩ : Fixup)).flatten := by
    intro items
    induction items with
    | nil => intro; exact .nil
    | cons item items ih =>
      intro number
      rw [List.flatMap_cons, List.mapIdx_cons, List.flatten_cons]
      exact List.rel_append
        (List.forall₂_map_right_iff.2 (List.forall₂_same.2 fun p _ => ⟨rfl, rfl⟩))
        (ih fun index => number (index + 1))
  exact items c.items id

theorem addressOf_eq {l : Layout} {s : Script} {label : String} {binding : Binding}
    (found : s.labels.get? label = some binding) :
    l.addressOf s label = blockAddress l.blockAddresses binding.block := by
  simp only [addressOf, LabelTable.resolve, found]
  rfl

theorem addressOf_label {l : Layout} {s : Script} {p : Pointer}
    (bound : ∃ binding, s.labels.get? p.label = some binding ∧ p.block = binding.block)
    (placed : p.block < l.blockAddresses.length) :
    l.addressOf s p.label = .ok (Code.target l.blockAddresses p) := by
  obtain ⟨binding, found, same⟩ := bound
  rw [addressOf_eq found, ← same, blockAddress_of_lt placed]
  rfl

end Layout

/-- Relaxation finds the least consistent widths. Each label that may grow gets exactly the width
that its address asks for, and any other choice of widths that holds all addresses is nowhere
narrower, so that its addresses and its size are nowhere smaller. -/
theorem Script.layout_least {s : Script} {limit : Nat} {c : Code} {l : Layout}
    (lowered : s.lower = .ok c) (laid : s.layout limit = .ok l) :
    List.Forall₂ (fun p (f : Fixup) => f.label = p.label ∧
        (p.forced = true → f.width = p.width) ∧
        (p.forced = false → ∃ address, l.addressOf s f.label = .ok address ∧
          f.width = Width.ofAddress address)) c.pointers l.fixups ∧
      ∀ e : Code, c.Rewidth (fun _ _ => True) e → e.Consistent →
        List.Forall₂ (fun (f : Fixup) p => f.width ≤ p.width) l.fixups e.pointers ∧
        List.Forall₂ (· ≤ ·) l.blockAddresses e.blockAddresses ∧ l.size ≤ e.size := by
  obtain ⟨c', d, passes, lowered', settled, rfl⟩ := Script.layout_eq_ok.1 laid
  cases lowered.symm.trans lowered'
  have narrow := Script.lower_narrow lowered
  have fixups := Layout.fixups_ofCode d passes
  refine ⟨forall₂_comp (Code.settle_rewidth settled).pointers fixups ?_, fun e same consistent => ?_⟩
  · rintro p q inCode f related ⟨label, width⟩
    have bound := Script.settle_bound lowered settled inCode
    have same : q.label = p.label ∧ q.forced = p.forced ∧ (p.forced = true → q.width = p.width) := by
      cases related with
      | same => exact ⟨rfl, rfl, fun _ => rfl⟩
      | pointer _ width free _ => exact ⟨rfl, rfl, fun forced => by simp [free] at forced⟩
    rw [label, width]
    refine ⟨same.1, same.2.2, fun free => ⟨Code.target d.blockAddresses q, ?_, ?_⟩⟩
    · exact Layout.addressOf_label bound (Script.settle_placed lowered settled inCode (same.2.1.trans free))
    · exact Code.settle_exact narrow settled inCode (same.2.1.trans free)
  · have below := Code.settle_le narrow settled same consistent
    refine ⟨forall₂_comp fixups.flip below.pointers ?_, below.blockAddresses_le, below.size_le⟩
    rintro f q - r ⟨-, width⟩ related
    rw [width]
    cases related with
    | same => exact Nat.le_refl _
    | pointer _ _ _ le => exact le

def farJump : Script where
  target := .globals
  blocks :=
    [ ⟨"start", [.instruction ⟨"goto", [.label "far" none false none], none⟩,
        .data ⟨.byte, [.text (List.replicate 300 0) none], none⟩]⟩,
      ⟨"far", [.instruction ⟨"return", [], none⟩]⟩ ]
  labels := ⟨[("start", ⟨0, 0⟩), ("far", ⟨1, 0⟩)], []⟩

def farJumpCode (width : Width) : Code :=
  [ [[.bytes [3], .pointer ⟨"far", 1, width, false, ⟨"goto", 0⟩, none⟩],
      [.bytes (List.replicate 300 0 ++ [0])]], [[.bytes [2]]] ]

set_option maxRecDepth 4000 in
theorem Script.layout_least_farJump :
    farJump.lower = .ok (farJumpCode .byte) ∧
      farJump.layout 64 = .ok ⟨306, 2, [0, 305], [0, 4, 305], [⟨0, 0, "far", .word⟩]⟩ ∧
      (farJumpCode .byte).Rewidth (fun _ _ => True) (farJumpCode .long) ∧
      (farJumpCode .long).Consistent ∧
      ∀ e : Code, (farJumpCode .byte).Rewidth (fun _ _ => True) e → e.Consistent → 306 ≤ e.size := by
  have lowered : farJump.lower = .ok (farJumpCode .byte) := rfl
  have laid : farJump.layout 64 =
      .ok ⟨306, 2, [0, 305], [0, 4, 305], [⟨0, 0, "far", .word⟩]⟩ := rfl
  refine ⟨lowered, laid, ?_, by decide, fun e same consistent => ?_⟩
  · exact .cons (.cons (.cons (.same _) (.cons (.pointer _ _ rfl trivial) .nil))
      (.cons (.cons (.same _) .nil) .nil)) (.cons (.cons (.cons (.same _) .nil) .nil) .nil)
  · exact ((Script.layout_least lowered laid).2 e same consistent).2.2

end EventScript
