import EventScript.Bytecode.Layout
import EventScript.Proofs.ByteOrder
import EventScript.Proofs.Encoding
import EventScript.Proofs.Outcome

namespace EventScript

theorem Piece.length_emit {addresses : List Nat} {address stop : Nat} {piece : Piece} {bs : Bytes}
    (emitted : piece.emit addresses address stop = .ok bs) : bs.length = piece.size := by
  have length_word {value : Nat} {bs : Bytes} (h : Piece.word value = .ok bs) : bs.length = 4 := by
    unfold word at h
    split at h <;> cases h
    simp
  cases piece with
  | bytes b =>
    cases emitted
    rfl
  | pointer p =>
    obtain ⟨value, -, stored⟩ := bind_eq_ok.1 emitted
    split at stored <;> cases stored
    simp [size]
  | blockWord block =>
    obtain ⟨value, -, stored⟩ := bind_eq_ok.1 emitted
    exact length_word stored
  | endWord => exact length_word emitted
  | sizeWord site span =>
    simp only [emit] at emitted
    split at emitted <;> cases emitted
    simp [size]

namespace ItemCode

variable {addresses : List Nat} {address stop : Nat} {code code' : ItemCode} {bs : Bytes}

theorem emit_cons {piece : Piece} :
    emit addresses stop address (piece :: code) = .ok bs ↔ ∃ b b', bs = b ++ b' ∧
      piece.emit addresses address stop = .ok b ∧
        emit addresses stop (address + piece.size) code = .ok b' := by
  simp only [emit, bind_eq_ok, pure_eq_ok]
  constructor
  · rintro ⟨b, first, b', rest, rfl⟩
    exact ⟨b, b', rfl, first, rest⟩
  · rintro ⟨b, b', rfl, first, rest⟩
    exact ⟨b, first, b', rest, rfl⟩

theorem length_emit (emitted : emit addresses stop address code = .ok bs) :
    bs.length = code.size := by
  induction code generalizing address bs with
  | nil =>
    cases emitted
    rfl
  | cons piece code ih =>
    obtain ⟨b, b', rfl, first, rest⟩ := emit_cons.1 emitted
    simp [size, Piece.length_emit first, ih rest]

/-- Pieces that are bytes already are emitted as they are, wherever they stand. -/
theorem emit_of_spells (spells : code.Spells bs) :
    emit addresses stop address code = .ok bs := by
  obtain ⟨chunks, rfl, rfl⟩ := spells
  induction chunks generalizing address with
  | nil => rfl
  | cons chunk chunks ih => exact emit_cons.2 ⟨_, _, List.flatten_cons, rfl, ih⟩

end ItemCode

namespace Code

theorem length_emitItems {addresses : List Nat} {address : Nat} {items : List ItemCode} {bs : Bytes}
    (emitted : emitItems addresses address items = .ok bs) :
    bs.length = (items.map ItemCode.size).sum := by
  induction items generalizing address bs with
  | nil =>
    cases emitted
    rfl
  | cons item items ih =>
    obtain ⟨b, first, emitted⟩ := bind_eq_ok.1 emitted
    obtain ⟨b', rest, done⟩ := bind_eq_ok.1 emitted
    cases done
    simp [ItemCode.length_emit first, ih rest]

theorem emit_eq_ok {c : Code} {bs : Bytes} :
    c.emit = .ok bs ↔ emitItems c.blockAddresses 0 c.items = .ok bs := by
  simp only [emit, bind_eq_ok]
  constructor
  · rintro ⟨bytes, emitted, h⟩
    split at h
    · cases h
      exact emitted
    · cases h
  · intro emitted
    exact ⟨bs, emitted, if_pos (length_emitItems emitted)⟩

end Code

end EventScript
