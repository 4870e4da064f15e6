import SaveChip.Proofs.Snapshot.Overrun
import SaveChip.Proofs.Snapshot.Restore

/-! # Loading from a buffer of any length

A chip that loads from a buffer looks at its front only.  If the buffer holds a whole snapshot, the
chip does what it does with this snapshot alone, and the bytes behind it do not count (`restore_take`).
If it holds the header and not all of the contents, the chip still answers every fault of the header,
and runs out of bytes only then (`load_headerOnly`).  If it does not even hold the header, the reader
goes as far as there are whole fields (`load_short`).

Whatever goes wrong, it goes wrong before the chip is touched. -/

namespace SaveChip

/-! ### The front of a buffer -/

theorem take_drop_take {α : Type} {offset width n : Nat} (h : offset + width ≤ n) (xs : List α) :
    ((xs.take n).drop offset).take width = (xs.drop offset).take width := by
  have hmin : min width (n - offset) = width := by omega
  rw [List.drop_take, List.take_take, hmin]

/-- A header is read off the front of the bytes, whatever comes behind. -/
theorem Header.ofBytes_take {n : Nat} (h : 33 ≤ n) (bs : List UInt8) :
    ofBytes (bs.take n) = ofBytes bs := by
  have hfront : ∀ offset width, offset + width ≤ 33 →
      ((bs.take n).drop offset).take width = (bs.drop offset).take width :=
    fun offset width hend => take_drop_take (by omega) bs
  simp only [ofBytes, flagAt, wordAt, dwordAt]
  rw [hfront 0 1 (by omega), hfront 1 4 (by omega), hfront 5 4 (by omega), hfront 9 4 (by omega),
    hfront 13 4 (by omega), hfront 17 4 (by omega), hfront 21 4 (by omega), hfront 25 8 (by omega)]

theorem Header.ofBytes_congr {bs bs' : List UInt8} (h : bs.take 33 = bs'.take 33) :
    ofBytes bs = ofBytes bs' := by
  rw [← ofBytes_take (Nat.le_refl 33) bs, h, ofBytes_take (Nat.le_refl 33)]

section

variable {α : Type} {limit position n : Nat} {xs : List α}

/-- Where things that follow one another from a position on begin and end. -/
def boundaries (width : α → Nat) (position : Nat) : List α → List Nat
  | [] => [position]
  | x :: xs => position :: boundaries width (position + width x) xs

variable {width : α → Nat}

theorem le_of_mem_boundaries (h : n ∈ boundaries width position xs) : position ≤ n := by
  induction xs generalizing position with
  | nil => exact Nat.le_of_eq (List.mem_singleton.mp h).symm
  | cons x xs ih =>
      obtain rfl | hrest := List.mem_cons.mp h
      · exact Nat.le_refl _
      · exact Nat.le_of_add_right_le (ih hrest)

theorem fitting_mem_boundaries (width : α → Nat) (limit position : Nat) (xs : List α) :
    position + total width (fitting width limit position xs) ∈ boundaries width position xs := by
  induction xs generalizing position with
  | nil => exact List.mem_singleton.mpr rfl
  | cons x xs ih =>
      unfold fitting boundaries
      split
      · rw [total_cons, ← Nat.add_assoc]
        exact List.mem_cons_of_mem _ (ih _)
      · exact List.mem_cons_self

theorem le_fitting_of_mem (h : n ∈ boundaries width position xs) (hn : n ≤ limit) :
    n ≤ position + total width (fitting width limit position xs) := by
  induction xs generalizing position with
  | nil => exact Nat.le_trans (Nat.le_of_eq (List.mem_singleton.mp h)) (Nat.le_add_right ..)
  | cons x xs ih =>
      obtain rfl | hrest := List.mem_cons.mp h
      · exact Nat.le_add_right ..
      · have hx : position + width x ≤ limit := Nat.le_trans (le_of_mem_boundaries hrest) hn
        rw [fitting, if_pos hx, total_cons, ← Nat.add_assoc]
        exact ih hrest

end

theorem Header.load_short {bs : List UInt8} (h : bs.length < 33) :
    load (.ofBuffer bs) =
      (none, ⟨bs, total Shape.width (fitting Shape.width bs.length 0 shapes)⟩) := by
  have htaken := (Reader.ofBuffer bs).getAll_fitting shapes
  dsimp only [Reader.ofBuffer] at htaken
  have hpart : (Shape.decodeAll (fitting Shape.width bs.length 0 shapes) (bs.drop 0)).length ≠
      shapes.length := by
    intro hlength
    rw [Shape.length_decodeAll] at hlength
    have hall := (fitting_starts Shape.width bs.length 0 shapes).eq_of_length hlength
    have hroom := (fitting_eq_self (Nat.zero_le bs.length)).mp hall
    have hwidth : total Shape.width shapes = 33 := rfl
    omega
  rw [load, Reader.ofBuffer, htaken]
  dsimp only
  rw [ofFields?_eq_none hpart, Nat.zero_add]

namespace Chip

variable {c : Chip} {bs : List UInt8}

/-! ### The three lengths of a buffer -/

/-- A buffer that holds a whole snapshot is as good as this snapshot. -/
theorem restore_take (h : c.snapshotSize ≤ bs.length) :
    c.restore (bs.take c.snapshotSize) =
      ((c.load (.ofBuffer bs)).1, (c.load (.ofBuffer bs)).2.1) := by
  have hlength : (bs.take c.snapshotSize).length = c.snapshotSize := by
    rw [List.length_take, Nat.min_eq_left h]
  have hsize : c.snapshotSize = 33 + c.size := rfl
  rw [restore, if_neg (not_not_intro hlength), load_ofBuffer c (Nat.le_of_eq hlength.symm),
    load_ofBuffer c h, Header.ofBytes_take (by omega), Header.width_eq,
    take_drop_take (Nat.le_of_eq hsize.symm)]
  cases c.withHeader? (.ofBytes bs) <;> rfl

/-- Where the header ends is where a chip stops that finds a fault in it; otherwise it goes on to the
end of the snapshot. -/
theorem position_load (h : c.snapshotSize ≤ bs.length) :
    ((c.load (.ofBuffer bs)).1 = .loaded ∧ (c.load (.ofBuffer bs)).2.2.position = c.snapshotSize) ∨
      ∃ x, (c.load (.ofBuffer bs)).1 = .rejected x ∧ (c.load (.ofBuffer bs)).2.2.position = 33 := by
  rw [load_ofBuffer c h]
  cases c.withHeader? (.ofBytes bs) with
  | error x => exact .inr ⟨x, rfl, rfl⟩
  | ok c' => exact .inl ⟨rfl, rfl⟩

/-- The header is looked at before the contents are found to be cut short. -/
theorem load_headerOnly (hheader : 33 ≤ bs.length) (hshort : bs.length < c.snapshotSize) :
    c.load (.ofBuffer bs) =
      match c.withHeader? (.ofBytes bs) with
      | .error x => (.rejected x, c, ⟨bs, 33⟩)
      | .ok _ => (.overrun, c, ⟨bs, 33⟩) := by
  have hnone : (⟨bs, Header.width⟩ : Reader).get (.bytes c.size) = none :=
    Reader.get_eq_none_iff.mpr hshort
  rw [load, Header.load_ofBuffer hheader]
  dsimp only
  rw [hnone]
  rfl

theorem load_short (h : bs.length < 33) :
    c.load (.ofBuffer bs) = (.overrun, c,
      ⟨bs, total Shape.width (fitting Shape.width bs.length 0 Header.shapes)⟩) := by
  rw [load, Header.load_short h]

/-- **Loading from a buffer of any length**, on a chip in whatever state a run has left it.  A buffer
that holds a whole snapshot is judged and taken over as this snapshot is, and the reader stops behind
it, or behind the header if that has a fault.  A buffer that holds the header but not the whole
snapshot gets the answer that any snapshot with this header gets, except that one that would be taken
over runs out of bytes, and in either case the reader stops behind the header.  A buffer that does not
hold the header runs out of bytes, and the reader stops behind the last header field that it holds
whole.  A chip that does not take a snapshot over is the chip it was. -/
theorem load_reached (k : Kind) (history : List (UInt64 × Request)) (bs : List UInt8) :
    let chip := reached k history
    let size := 33 + k.bytes
    let outcome := (chip.load (.ofBuffer bs)).1
    let after := (chip.load (.ofBuffer bs)).2.1
    let position := (chip.load (.ofBuffer bs)).2.2.position
    let ends := [0, 1, 5, 9, 13, 17, 21, 25, 33]
    chip.snapshotSize = size ∧
    (size ≤ bs.length →
      chip.restore (bs.take size) = (outcome, after) ∧
        (outcome = .loaded ∧ position = size ∨ ∃ x, outcome = .rejected x ∧ position = 33)) ∧
    (33 ≤ bs.length → bs.length < size →
      position = 33 ∧
        ∀ full : List UInt8, full.length = size → full.take 33 = bs.take 33 →
          outcome =
            match (chip.restore full).1 with
            | .rejected x => .rejected x
            | .loaded | .overrun => .overrun) ∧
    (bs.length < 33 →
      outcome = .overrun ∧ position ∈ ends ∧ position ≤ bs.length ∧
        ∀ n ∈ ends, n ≤ bs.length → n ≤ position) ∧
    (outcome ≠ .loaded → after = chip) := by
  intro chip size outcome after position ends
  have hsize : chip.snapshotSize = size := by
    rw [snapshotSize, Header.width_eq, (sound_reached k history).size_eq, kind_reached]
  refine ⟨hsize, ?_, ?_, ?_, load_eq_self⟩
  · intro hwhole
    rw [← hsize] at hwhole ⊢
    exact ⟨restore_take hwhole, position_load hwhole⟩
  · intro hheader hshort
    rw [← hsize] at hshort
    have hload := load_headerOnly hheader hshort
    have hposition : position = 33 := by
      simp only [position, hload]
      cases chip.withHeader? (.ofBytes bs) <;> rfl
    refine ⟨hposition, fun full hfull hsame => ?_⟩
    rw [← hsize] at hfull
    rw [restore, if_neg (not_not_intro hfull), load_ofBuffer chip (Nat.le_of_eq hfull.symm),
      Header.ofBytes_congr hsame]
    simp only [outcome, hload]
    cases chip.withHeader? (.ofBytes bs) <;> rfl
  · intro hshort
    have hload : chip.load (.ofBuffer bs) = _ := load_short hshort
    have hposition : position =
        0 + total Shape.width (fitting Shape.width bs.length 0 Header.shapes) := by
      rw [Nat.zero_add]
      exact congrArg (·.2.2.position) hload
    refine ⟨congrArg Prod.fst hload, ?_, ?_, ?_⟩
    · rw [hposition]
      exact fitting_mem_boundaries Shape.width bs.length 0 Header.shapes
    · rw [hposition]
      exact fitting_le Shape.width (Nat.zero_le _) Header.shapes
    · intro n hn hle
      have hend : n ∈ boundaries Shape.width 0 Header.shapes := hn
      rw [hposition]
      exact le_fitting_of_mem hend hle

end Chip

end SaveChip
