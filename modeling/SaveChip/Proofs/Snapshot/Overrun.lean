import SaveChip.Proofs.Snapshot.Series

/-! # Cursors that run out of room

A field that would run past the end of the buffer is not written or read at all, and the cursor stays
where it is.  A step of several fields goes through them in order and stops before the first for which
there is no room, and the caller may go on with a further step, whose fields may be small enough again.
So what a series of steps gets done depends on all of its history, but on nothing except the widths of
the fields: `fitting` says it of one step and `performed` of a series.

Both cursors do exactly this (`Writer.putAll_fitting`, `Reader.getAll_fitting`).  Hence a buffer that
was blank holds at any time the bytes of the fields performed so far, and zeros behind them
(`Writer.stepwise_perform`). -/

namespace SaveChip

section

variable {α : Type} {limit position : Nat} {xs ys : List α}

/-- Of things that are to follow one another from a position on, those that come before the first one
that would run past the limit. -/
def fitting (width : α → Nat) (limit position : Nat) : List α → List α
  | [] => []
  | x :: xs =>
      if position + width x ≤ limit then x :: fitting width limit (position + width x) xs else []

/-- What a series of steps gets done: each of them goes on where the one before it stopped. -/
def performed (width : α → Nat) (limit position : Nat) : List (List α) → List α
  | [] => []
  | step :: steps =>
      let done := fitting width limit position step
      done ++ performed width limit (position + total width done) steps

variable (width : α → Nat)

theorem total_append (xs ys : List α) :
    total width (xs ++ ys) = total width xs + total width ys := by
  induction xs with
  | nil => exact (Nat.zero_add _).symm
  | cons x xs ih => rw [List.cons_append, total_cons, ih, total_cons, Nat.add_assoc]

theorem fitting_le (h : position ≤ limit) (xs : List α) :
    position + total width (fitting width limit position xs) ≤ limit := by
  induction xs generalizing position with
  | nil => exact h
  | cons x xs ih =>
      unfold fitting
      split
      · rename_i hx
        have hrest := ih hx
        rw [total_cons]
        omega
      · exact h

theorem performed_le (h : position ≤ limit) (steps : List (List α)) :
    position + total width (performed width limit position steps) ≤ limit := by
  induction steps generalizing position with
  | nil => exact h
  | cons step steps ih =>
      have hrest := ih (fitting_le width h step)
      rw [performed, total_append]
      omega

theorem total_performed_le (limit : Nat) (steps : List (List α)) :
    total width (performed width limit 0 steps) ≤ limit := by
  have hle := performed_le width (Nat.zero_le limit) steps
  rwa [Nat.zero_add] at hle

variable {width}

theorem fitting_append (h : position + total width xs ≤ limit) :
    fitting width limit position (xs ++ ys) =
      xs ++ fitting width limit (position + total width xs) ys := by
  induction xs generalizing position with
  | nil => rfl
  | cons x xs ih =>
      rw [total_cons] at h ⊢
      rw [List.cons_append, fitting, if_pos (by omega), ih (by omega), List.cons_append,
        Nat.add_assoc]

theorem fitting_of_le (h : position + total width xs ≤ limit) :
    fitting width limit position xs = xs := by
  have happend : fitting width limit position (xs ++ []) = xs ++ [] := fitting_append h
  rwa [List.append_nil] at happend

theorem fitting_append_of_lt (h : limit < position + total width xs) :
    fitting width limit position (xs ++ ys) = fitting width limit position xs := by
  induction xs generalizing position with
  | nil =>
      have hlt : limit < position := h
      cases ys with
      | nil => rfl
      | cons y ys =>
          have hy : ¬position + width y ≤ limit := by omega
          exact if_neg hy
  | cons x xs ih =>
      rw [total_cons] at h
      rw [List.cons_append, fitting, fitting, ih (by omega)]

theorem fitting_starts (width : α → Nat) (limit position : Nat) (xs : List α) :
    fitting width limit position xs <+: xs := by
  induction xs generalizing position with
  | nil => exact List.nil_prefix
  | cons x xs ih =>
      unfold fitting
      split
      · exact (List.prefix_cons_inj x).mpr (ih _)
      · exact List.nil_prefix

theorem performed_singletons (h : position + total width xs ≤ limit) :
    performed width limit position (xs.map fun x => [x]) = xs := by
  induction xs generalizing position with
  | nil => rfl
  | cons x xs ih =>
      rw [total_cons] at h
      have hx : fitting width limit position [x] = [x] := fitting_of_le (by
        rw [total_cons]
        simp only [total, List.foldr_nil]
        omega)
      have hroom : position + total width [x] + total width xs ≤ limit := by
        rw [total_cons]
        simp only [total, List.foldr_nil] at h ⊢
        omega
      have hrest := ih hroom
      rw [List.map_cons, performed, hx, hrest]
      rfl

/-- All of them fit if and only if they do so together. -/
theorem fitting_eq_self (h : position ≤ limit) :
    fitting width limit position xs = xs ↔ position + total width xs ≤ limit := by
  constructor
  · intro hall
    have hle := fitting_le width h xs
    rwa [hall] at hle
  · exact fitting_of_le

end

/-! ### Writing -/

/-- What a caller does with a writer in one step. -/
inductive Step where
  | item (x : Item)
  | snapshot (c : Chip)
deriving DecidableEq, Repr

def Step.fields : Step → List Field
  | item x => x.fields
  | snapshot c => c.snapshotFields

theorem Field.length_encodeAll_eq_total (fs : List Field) :
    (encodeAll fs).length = total width fs := by
  rw [length_encodeAll, Shape.totalWidth, List.foldr_map]
  rfl

namespace Writer

variable {w : Writer}

/-- Takes a step; says whether all of it fitted. -/
def perform (w : Writer) : Step → Bool × Writer
  | .item x => w.save x
  | .snapshot c => c.save w

/-- A writer over `n` bytes into which fields have been written, and nothing else. -/
def holding (n : Nat) (fs : List Field) : Writer where
  buffer := Field.encodeAll fs ++ List.replicate (n - (Field.encodeAll fs).length) 0
  position := (Field.encodeAll fs).length

theorem filled_blank (n : Nat) (fs : List Field) : (blank n).filled fs = holding n fs := by
  simp [filled, blank, holding]

theorem position_holding (n : Nat) (fs : List Field) :
    (holding n fs).position = total Field.width fs := Field.length_encodeAll_eq_total fs

theorem length_holding {n : Nat} {fs : List Field} (h : total Field.width fs ≤ n) :
    (holding n fs).buffer.length = n := by
  rw [← Field.length_encodeAll_eq_total] at h
  rw [holding, List.length_append, List.length_replicate]
  omega

theorem filled_holding {n : Nat} {fs gs : List Field} (h : total Field.width (fs ++ gs) ≤ n) :
    (holding n fs).filled gs = holding n (fs ++ gs) := by
  rw [← Field.length_encodeAll_eq_total] at h
  have hroom : (blank n).position + (Field.encodeAll (fs ++ gs)).length ≤
      (blank n).buffer.length := by
    rw [blank, List.length_replicate, Nat.zero_add]
    exact h
  rw [← filled_blank, filled_append hroom, filled_blank]

theorem perform_eq (w : Writer) (step : Step) : w.perform step = w.putAll step.fields := by
  cases step with
  | snapshot c => rfl
  | item x => exact w.save_eq_putAll x

/-- **A writer stops before the first field that does not fit**, with all fields before it written. -/
theorem putAll_fitting (w : Writer) (fs : List Field) :
    w.putAll fs =
      (decide (fitting Field.width w.buffer.length w.position fs = fs),
        w.filled (fitting Field.width w.buffer.length w.position fs)) := by
  induction fs generalizing w with
  | nil => simp [putAll, fitting]
  | cons f fs ih =>
      rw [putAll, fitting]
      by_cases hf : w.position + f.width ≤ w.buffer.length
      · have hone : (Field.encodeAll [f]).length = f.width := by
          rw [Field.length_encodeAll_eq_total]
          exact Nat.add_zero _
        have hroom : w.position + (Field.encodeAll [f]).length ≤ w.buffer.length := by
          rw [hone]
          exact hf
        have hput : w.put f = some (w.filled [f]) := by
          rw [put_eq hf, filled, hone]
          simp [Field.encodeAll]
        have hlength := length_filled hroom
        have hposition : (w.filled [f]).position = w.position + f.width := by
          rw [position_filled, hone]
        have hrest := ih (w.filled [f])
        have hboth : w.position + (Field.encodeAll (f ::
            fitting Field.width w.buffer.length (w.position + f.width) fs)).length ≤
              w.buffer.length := by
          have hle := fitting_le Field.width hf fs
          rw [Field.length_encodeAll_eq_total, total_cons]
          omega
        rw [hlength, hposition] at hrest
        rw [hput, if_pos hf]
        dsimp only
        rw [hrest, filled_append hboth]
        simp
      · have hput : w.put f = none := put_eq_none_iff.mpr (by omega)
        rw [hput, if_neg hf, filled_nil]
        simp

/-- A step that is broken off leaves what its first fields leave if they are written one by one. -/
theorem stepwise_perform (hw : w.position ≤ w.buffer.length) (steps : List Step) :
    (stepwise perform position w steps).2 =
      w.filled (performed Field.width w.buffer.length w.position (steps.map Step.fields)) := by
  induction steps generalizing w with
  | nil => exact (filled_nil w).symm
  | cons step steps ih =>
      have hdone := fitting_le Field.width hw step.fields
      have hroom := hdone
      rw [← Field.length_encodeAll_eq_total] at hroom
      have hlength := length_filled hroom
      have hrest := ih (w := w.filled _) (by rw [position_filled, hlength]; exact hroom)
      have hall : w.position + (Field.encodeAll (performed Field.width w.buffer.length w.position
          (step.fields :: steps.map Step.fields))).length ≤ w.buffer.length := by
        rw [Field.length_encodeAll_eq_total]
        exact performed_le Field.width hw _
      rw [stepwise, perform_eq, putAll_fitting]
      dsimp only
      rw [hrest, hlength, position_filled, Field.length_encodeAll_eq_total, List.map_cons]
      rw [performed] at hall ⊢
      exact filled_append hall

/-- A blank buffer holds at any time the fields that the steps so far have got done. -/
theorem stepwise_blank (n : Nat) (steps : List Step) :
    (stepwise perform position (blank n) steps).2 =
      holding n (performed Field.width n 0 (steps.map Step.fields)) := by
  have hrun := stepwise_perform (w := blank n) (Nat.zero_le _) steps
  rw [filled_blank, blank, List.length_replicate] at hrun
  exact hrun

/-- A step adds the fields that fit to those that a buffer holds. -/
theorem perform_holding {n : Nat} {fs : List Field} (h : total Field.width fs ≤ n) (step : Step) :
    let fitted := fitting Field.width n (total Field.width fs) step.fields
    (holding n fs).perform step = (decide (fitted = step.fields), holding n (fs ++ fitted)) := by
  intro fitted
  have hfitted : total Field.width (fs ++ fitted) ≤ n := by
    rw [total_append]
    exact fitting_le Field.width h step.fields
  rw [perform_eq, putAll_fitting, position_holding, length_holding h, ← filled_holding hfitted]

theorem perform_field {n : Nat} {fs : List Field} (h : total Field.width fs ≤ n) (f : Field) :
    (holding n fs).perform (.item (.field f)) =
      if total Field.width fs + f.width ≤ n then (true, holding n (fs ++ [f]))
      else (false, holding n fs) := by
  refine (perform_holding h (.item (.field f))).trans ?_
  by_cases hf : total Field.width fs + f.width ≤ n
  · have hfitted : fitting Field.width n (total Field.width fs) [f] = [f] := if_pos hf
    rw [Step.fields, Item.fields, hfitted, if_pos hf, decide_eq_true rfl]
  · have hfitted : fitting Field.width n (total Field.width fs) [f] = [] := if_neg hf
    rw [Step.fields, Item.fields, hfitted, if_neg hf, List.append_nil]
    simp

/-- Fields that fit together are written one by one. -/
theorem stepwise_fields {n : Nat} {fs gs : List Field} (h : total Field.width (fs ++ gs) ≤ n) :
    (stepwise perform position (holding n fs) (gs.map fun f => .item (.field f))).2 =
      holding n (fs ++ gs) := by
  have hgs := h
  rw [total_append] at hgs
  have hfs : total Field.width fs ≤ n := by omega
  have hfields : (gs.map fun f => Step.item (.field f)).map Step.fields = gs.map fun f => [f] := by
    rw [List.map_map]
    rfl
  rw [stepwise_perform, position_holding, length_holding hfs, hfields, performed_singletons hgs,
    filled_holding h]
  rw [position_holding, length_holding hfs]
  exact hfs

end Writer

/-! ### Reading -/

theorem Shape.length_decodeAll (ss : List Shape) (bs : List UInt8) :
    (decodeAll ss bs).length = ss.length := by
  induction ss generalizing bs with
  | nil => rfl
  | cons s ss ih => simp [decodeAll, ih]

theorem Header.ofFields?_eq_none {fs : List Field} (h : fs.length ≠ shapes.length) :
    ofFields? fs = none := by
  unfold ofFields?
  split
  · exact absurd rfl h
  · rfl

namespace Reader

variable {r : Reader}

/-- **A reader stops before the first field that does not fit**, with all fields before it read. -/
theorem getAll_fitting (r : Reader) (ss : List Shape) :
    let fitted := fitting Shape.width r.buffer.length r.position ss
    r.getAll ss = (Shape.decodeAll fitted (r.buffer.drop r.position),
      { r with position := r.position + total Shape.width fitted }) := by
  induction ss generalizing r with
  | nil => rfl
  | cons s ss ih =>
      rw [getAll, fitting]
      by_cases hs : r.position + s.width ≤ r.buffer.length
      · have hrest := ih { r with position := r.position + s.width }
        rw [get_eq hs, if_pos hs]
        dsimp only at hrest ⊢
        rw [hrest, total_cons, Shape.decodeAll, List.drop_drop, Nat.add_assoc]
      · have hget : r.get s = none := get_eq_none_iff.mpr (by omega)
        rw [hget, if_neg hs]
        rfl

theorem load_field (r : Reader) (s : Shape) :
    r.load (.field s) =
      if r.position + s.width ≤ r.buffer.length then
        (some (.field (s.decode ((r.buffer.drop r.position).take s.width))),
          { r with position := r.position + s.width })
      else
        (none, r) := by
  rw [load]
  by_cases hs : r.position + s.width ≤ r.buffer.length
  · rw [get_eq hs, if_pos hs]
  · have hget : r.get s = none := get_eq_none_iff.mpr (by omega)
    rw [hget, if_neg hs]

theorem load_header (r : Reader) :
    let fitted := fitting Shape.width r.buffer.length r.position Header.shapes
    r.load .header =
      (if fitted = Header.shapes then some (.header (.ofBytes (r.buffer.drop r.position))) else none,
        { r with position := r.position + total Shape.width fitted }) := by
  intro fitted
  have hvalue : Header.ofFields? (Shape.decodeAll fitted (r.buffer.drop r.position)) =
      if fitted = Header.shapes then some (.ofBytes (r.buffer.drop r.position)) else none := by
    by_cases hall : fitted = Header.shapes
    · rw [if_pos hall, hall, Header.ofFields?_decodeAll]
    · have hlength : fitted.length ≠ Header.shapes.length :=
        fun h => hall ((fitting_starts ..).eq_of_length h)
      rw [if_neg hall]
      apply Header.ofFields?_eq_none
      rw [Shape.length_decodeAll]
      exact hlength
  rw [load, Header.load, r.getAll_fitting Header.shapes]
  dsimp only
  rw [hvalue]
  split <;> rfl

theorem load_snd (r : Reader) (x : ItemShape) :
    (r.load x).2 = { r with
      position :=
        r.position + total Shape.width (fitting Shape.width r.buffer.length r.position x.shapes) } := by
  cases x with
  | header => rw [load_header]; rfl
  | field s =>
      rw [load_field, ItemShape.shapes, fitting]
      split <;> rfl

theorem stepwise_load_snd (r : Reader) (xs : List ItemShape) :
    (stepwise load position r xs).2 = { r with
      position := r.position + total Shape.width
        (performed Shape.width r.buffer.length r.position (xs.map ItemShape.shapes)) } := by
  induction xs generalizing r with
  | nil => rfl
  | cons x xs ih =>
      rw [stepwise, load_snd]
      dsimp only
      rw [ih, List.map_cons, performed, total_append, Nat.add_assoc]

/-- A reader stands at any time behind the fields that the steps so far have got done. -/
theorem stepwise_ofBuffer (bs : List UInt8) (xs : List ItemShape) :
    (stepwise load position (ofBuffer bs) xs).2 =
      ⟨bs, total Shape.width (performed Shape.width bs.length 0 (xs.map ItemShape.shapes))⟩ := by
  have hrun := stepwise_load_snd (ofBuffer bs) xs
  rwa [ofBuffer, Nat.zero_add] at hrun

end Reader

/-! ### Snapshots of chips -/

namespace Chip

theorem total_snapshotFields (c : Chip) : total Field.width c.snapshotFields = c.snapshotSize := by
  rw [← Field.length_encodeAll_eq_total, encodeAll_snapshotFields, List.length_append,
    Header.length_encode, length_contents, snapshotSize]

theorem total_headerFields (c : Chip) : total Field.width c.header.fields = Header.width := by
  rw [← Field.length_encodeAll_eq_total]
  exact c.header.length_encode

/-- What a chip saves into a buffer of any length. -/
theorem save_blank_eq (c : Chip) (n : Nat) :
    c.save (.blank n) =
      if c.snapshotSize ≤ n then (true, .holding n c.snapshotFields)
      else if 33 ≤ n then (false, .holding n c.header.fields)
      else (false, .holding n (fitting Field.width n 0 c.header.fields)) := by
  have hsave : c.save (.blank n) =
      (decide (fitting Field.width n 0 c.snapshotFields = c.snapshotFields),
        .holding n (fitting Field.width n 0 c.snapshotFields)) := by
    have hput := (Writer.blank n).putAll_fitting c.snapshotFields
    rw [Writer.filled_blank, Writer.blank, List.length_replicate] at hput
    exact hput
  have hall : fitting Field.width n 0 c.snapshotFields = c.snapshotFields ↔ c.snapshotSize ≤ n := by
    rw [fitting_eq_self (Nat.zero_le n), Nat.zero_add, total_snapshotFields]
  rw [hsave]
  split
  · rename_i hroom
    rw [hall.mpr hroom, decide_eq_true rfl]
  · rename_i hshort
    rw [decide_eq_false fun h => hshort (hall.mp h)]
    have hheader : total Field.width c.header.fields = 33 := c.total_headerFields
    split
    · have hcontents : (Field.bytes (c.contents?.getD [])).width = c.size := c.length_contents
      have hlong : ¬0 + 33 + (Field.bytes (c.contents?.getD [])).width ≤ n := by
        rw [snapshotSize, Header.width_eq] at hshort
        omega
      rw [snapshotFields, fitting_append (by omega), hheader, fitting, if_neg hlong,
        List.append_nil]
    · rw [snapshotFields, fitting_append_of_lt (by omega)]

end Chip

/-- **A cursor that runs out of room stops cleanly.**  Take any series of steps with a writer over a
blank buffer, going on after every step that does not fit.  At any time the buffer holds the fields
that were performed, in order, and zeros behind them.  A single field is then written if and only if
it ends within the buffer, and otherwise nothing happens; a step of several fields writes those before
the first one that does not fit, as if they were written one by one.  In the same way a reader reads a
single field if and only if it ends within the buffer, and a header up to the first field that does
not.  In particular a chip saves its whole snapshot if and only if there is room for all of it, and
else only whole fields of its header. -/
theorem overrun_exact :
    (∀ (n : Nat) (steps : List Step),
      let w := (stepwise Writer.perform Writer.position (.blank n) steps).2
      let done := performed Field.width n 0 (steps.map Step.fields)
      w = .holding n done ∧ w.position ≤ n ∧ w.buffer.length = n ∧
      (∀ f : Field, w.perform (.item (.field f)) =
        if w.position + f.width ≤ n then (true, .holding n (done ++ [f])) else (false, w)) ∧
      ∀ step : Step,
        let fitted := fitting Field.width n w.position step.fields
        w.perform step = (decide (fitted = step.fields),
          (stepwise Writer.perform Writer.position w
            (fitted.map fun f => .item (.field f))).2)) ∧
    (∀ (bs : List UInt8) (xs : List ItemShape),
      let r := (stepwise Reader.load Reader.position (.ofBuffer bs) xs).2
      let done := performed Shape.width bs.length 0 (xs.map ItemShape.shapes)
      let fitted := fitting Shape.width bs.length r.position Header.shapes
      r = ⟨bs, total Shape.width done⟩ ∧ r.position ≤ bs.length ∧
      (∀ s : Shape, r.load (.field s) =
        if r.position + s.width ≤ bs.length then
          (some (.field (s.decode ((bs.drop r.position).take s.width))), ⟨bs, r.position + s.width⟩)
        else
          (none, r)) ∧
      r.load .header =
        (if fitted = Header.shapes then some (.header (.ofBytes (bs.drop r.position))) else none,
          ⟨bs, r.position + total Shape.width fitted⟩)) ∧
    ∀ (c : Chip) (n : Nat),
      c.save (.blank n) =
        if c.snapshotSize ≤ n then (true, .holding n c.snapshotFields)
        else if 33 ≤ n then (false, .holding n c.header.fields)
        else (false, .holding n (fitting Field.width n 0 c.header.fields)) := by
  refine ⟨?_, ?_, Chip.save_blank_eq⟩
  · intro n steps w done
    have hdone : total Field.width done ≤ n := total_performed_le Field.width n _
    have hw : w = .holding n done := Writer.stepwise_blank n steps
    have hposition : w.position = total Field.width done := by rw [hw, Writer.position_holding]
    refine ⟨hw, hposition ▸ hdone, hw ▸ Writer.length_holding hdone, ?_, ?_⟩
    · intro f
      rw [hposition, hw]
      exact Writer.perform_field hdone f
    · intro step fitted
      have hfitted : fitted = fitting Field.width n (total Field.width done) step.fields := by
        rw [← hposition]
      have hroom : total Field.width (done ++ fitted) ≤ n := by
        rw [total_append, hfitted]
        exact fitting_le Field.width hdone step.fields
      rw [hw, Writer.stepwise_fields hroom, hfitted]
      exact Writer.perform_holding hdone step
  · intro bs xs r done fitted
    have hdone : total Shape.width done ≤ bs.length := total_performed_le Shape.width bs.length _
    have hr : r = ⟨bs, total Shape.width done⟩ := Reader.stepwise_ofBuffer bs xs
    have hbuffer : r.buffer = bs := congrArg Reader.buffer hr
    have hfield := r.load_field
    have hheader := r.load_header
    rw [hbuffer] at hfield hheader
    exact ⟨hr, by rw [hr]; exact hdone, hfield, hheader⟩

/-- A small chip and a flag over 34 bytes: the header of the chip fits, and a flag behind it. -/
example :
    ((stepwise Writer.perform Writer.position (.blank 34)
      [.snapshot (.fresh (.eeprom .small)), .item (.field (.word 7)), .item (.field (.flag true)),
        .item (.field (.bytes []))]).1) =
      [(false, 33), (false, 33), (true, 34), (true, 34)] := by
  decide +kernel

end SaveChip
