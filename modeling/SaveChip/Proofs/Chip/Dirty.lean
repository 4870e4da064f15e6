import SaveChip.Proofs.Chip.Parsing

/-! # What the dirty flag covers

A RAM raises its dirty flag with every byte it stores.  A serial chip stores the data bits of a write
as they arrive, but raises the flag only with the bit that ends the write.  So at any time the storage
is as it was, or the flag is up, or a write is under way that will raise it (`Covered`).

A game keeps it so with every request but one (`Covered.respond`): a reset in the middle of a write
forgets the write, and what has been stored of it stays, unmarked (`run_cutOff`). -/

namespace SaveChip

/-- What a running game does, a reset of the machine included. -/
def Request.isGame : Request → Bool
  | .read .. | .write .. | .peek _ | .tick | .reset | .readBit | .writeBit _ => true
  | _ => false

namespace Chip

variable {c : Chip} {e : Eeprom} {was : Option Storage} {request : Request}

def Storing : Chip → Prop
  | eeprom e => e.phase = .writeData ∧ e.shifted ≠ 0
  | absent | sram _ => False

/-- A reset that finds some of the data bits of a write in the storage. -/
def CutsOff (c : Chip) : Request → Prop
  | .reset => c.Storing
  | _ => False

/-- The storage is as it was, or the flag is up, or a write is under way. -/
def Covered (was : Option Storage) (c : Chip) : Prop :=
  c.storage? = was ∨ c.dirty = true ∨ c.Storing

namespace Covered

theorem clockIn (h : Covered was (eeprom e)) (now : UInt64) (bit : Bool) :
    Covered was (eeprom (e.clockIn now bit)) := by
  by_cases hp : e.phase = .writeData
  · rw [Eeprom.clockIn_writeData hp]
    by_cases hlast : e.shifted = blockBits
    · rw [Eeprom.shiftIn_last hlast]
      exact .inr (.inl rfl)
    · rw [Eeprom.shiftIn_more hlast]
      exact .inr (.inr ⟨hp, Nat.succ_ne_zero _⟩)
  · obtain ⟨regs, hkept, -⟩ := Eeprom.clockIn_registers hp now bit
    rw [hkept]
    obtain hsame | hflag | hstoring := h
    · exact .inl hsame
    · exact .inr (.inl hflag)
    · exact absurd hstoring.1 hp

theorem clockOut (h : Covered was (eeprom e)) (now : UInt64) :
    Covered was (eeprom (e.clockOut now)) := by
  obtain hsame | hflag | hstoring := h
  · obtain ⟨regs, hkept, -⟩ := e.clockOut_registers now
    rw [hkept]
    exact .inl hsame
  · obtain ⟨regs, hkept, -⟩ := e.clockOut_registers now
    rw [hkept]
    exact .inr (.inl hflag)
  · have hstill : e.clockOut now = e := by rw [Eeprom.clockOut, hstoring.1]
    rw [hstill]
    exact .inr (.inr hstoring)

theorem reset (h : Covered was c) (hwhole : ¬c.Storing) : Covered was c.reset := by
  cases c with
  | absent | sram => exact h
  | eeprom e =>
      obtain hsame | hflag | hstoring := h
      · exact .inl hsame
      · exact .inr (.inl hflag)
      · exact absurd hstoring hwhole

theorem respond (h : Covered was c) (hgame : request.isGame = true) (hwhole : ¬c.CutsOff request)
    (now : UInt64) : Covered was (c.respond now request).2 := by
  cases request with
  | read | peek | tick => exact h
  | write width address value =>
      cases c with
      | absent | eeprom => exact h
      | sram s => exact .inr (.inl rfl)
  | reset => exact h.reset hwhole
  | readBit =>
      cases c with
      | absent | sram => exact h
      | eeprom e => exact h.clockOut now
  | writeBit value =>
      cases c with
      | absent | sram => exact h
      | eeprom e => exact h.clockIn now _
  | _ => cases hgame

theorem run (h : Covered was c) {game : List (UInt64 × Request)}
    (hgame : ∀ x ∈ game, x.2.isGame = true) (hwhole : c.Avoids CutsOff game) :
    Covered was (c.run game).2 :=
  hwhole.run (fun _ hc x hx hkeeps => hc.respond (hgame x hx) hkeeps x.1) h

end Covered

/-- **A change of the storage is marked unless a write was cut off.**  After the flag has been taken,
let a game run that never resets a serial chip in the middle of a write, and that leaves it between
two transfers.  If the storage has changed then, the flag is up. -/
theorem changed_marked (k : Kind) (history : List (UInt64 × Request)) (now later : UInt64)
    {game : List (UInt64 × Request)} (hgame : ∀ x ∈ game, x.2.isGame = true) :
    let taken := ((reached k history).respond now .takeDirty).2
    let played := (taken.run game).2
    taken.Avoids CutsOff game → (∀ e, played = eeprom e → e.phase = .idle) →
      played.contents? ≠ taken.contents? → (played.respond later .takeDirty).1 = .dirty true := by
  intro taken played hwhole hidle hchanged
  have hstart : Covered taken.storage? taken := .inl rfl
  have hend : Covered taken.storage? played := hstart.run hgame hwhole
  obtain hsame | hflag | hstoring := hend
  · exact absurd (congrArg (Option.map Storage.toList) hsame) hchanged
  · exact congrArg Reply.dirty hflag
  · cases hplayed : played with
    | absent | sram =>
        rw [hplayed] at hstoring
        cases hstoring
    | eeprom e =>
        have hphase := hidle e hplayed
        rw [hplayed] at hstoring
        cases hphase.symm.trans hstoring.1

/-- The flag is taken in the middle of a write, and the game goes on to its end. -/
theorem changed_marked_midway :
    let half : List UInt8 := [1, 0] ++ List.replicate 6 0 ++ List.replicate 32 1
    let rest : List UInt8 := List.replicate 32 0 ++ [0]
    let history : List (UInt64 × Request) := half.map fun value => (0, .writeBit value)
    let game : List (UInt64 × Request) := rest.map fun value => (0, .writeBit value)
    let taken := ((reached (.eeprom .small) history).respond 0 .takeDirty).2
    let played := (taken.run game).2
    played.contents? ≠ taken.contents? ∧ (played.respond 0 .takeDirty).1 = .dirty true := by
  intro half rest history game taken played
  let begun : Frame := .writeData (List.replicate 6 false) (List.replicate 32 true)
  let whole : Frame :=
    .write (List.replicate 6 false) (List.replicate 32 true ++ List.replicate 32 false) false []
  let started := (Eeprom.fresh .small).afterFrame 0 begun
  let ended := (Eeprom.fresh .small).afterFrame 0 whole
  have hnow : (0 : UInt64) < 0xFFFFFFFFFFFFFFFF := by decide
  have hbegun : begun.Fits .small := ⟨rfl, by decide⟩
  have hwhole : whole.Fits .small := ⟨rfl, rfl⟩
  have hfirst := Eeprom.send_frame (Eeprom.sound_fresh .small) ⟨rfl, rfl⟩ rfl hnow hbegun
  have hboth := Eeprom.send_frame (Eeprom.sound_fresh .small) ⟨rfl, rfl⟩ rfl hnow hwhole
  have hsecond : started.send ((rest.map (bitAt · 0)).map (0, ·)) = ended := by
    change ((Eeprom.fresh .small).afterFrame 0 begun).send _ = _
    rw [← hfirst, ← Eeprom.send_append]
    exact hboth
  have htaken : taken = eeprom started :=
    congrArg clearDirty ((run_values (.fresh .small) 0 half).trans (congrArg eeprom hfirst))
  have hplayed : played = eeprom ended := by
    change (taken.run game).2 = _
    rw [htaken]
    exact (run_values started 0 rest).trans (congrArg eeprom hsecond)
  have hchanged : played.contents? ≠ taken.contents? := by
    rw [hplayed, htaken]
    decide +kernel
  refine ⟨hchanged, changed_marked (.eeprom .small) history 0 0 (by decide) ?_ ?_ hchanged⟩
  · apply avoids_of_forall
    intro x hx c
    obtain ⟨value, -, rfl⟩ := List.mem_map.mp hx
    exact id
  · intro e he
    cases hplayed.symm.trans he
    rfl

/-- A reset after some of the data bits of a write leaves them in the storage, and the flag as it
was. -/
theorem run_cutOff (h : e.Sound) (hr : e.Resting) (hready : e.ready = true)
    {address data : List Bool} (haddress : address.length = e.capacity.addressBits)
    (hdata : data.length ≤ blockBits) {values : List UInt8}
    (hvalues : values.map (bitAt · 0) = true :: false :: (address ++ data)) (now : UInt64) :
    ((eeprom e).run (values.map (fun value => (now, .writeBit value)) ++ [(now, .reset)])).2 =
      eeprom { e with
        toRegisters := {}
        storage :=
          e.storage.setWord (e.named address)
            (overlay (e.storage.word (e.named address)) data) } := by
  rw [run_append, run_values, hvalues, Eeprom.send_storing h hr hready haddress hdata]
  rfl

/-- A reset after the first data bit of a write: the storage has changed, the flag is down. -/
theorem cut_off_unmarked :
    let game : List (UInt64 × Request) :=
      [(0, .writeBit 1), (0, .writeBit 0), (0, .writeBit 0), (0, .writeBit 0), (0, .writeBit 0),
        (0, .writeBit 0), (0, .writeBit 0), (0, .writeBit 0), (0, .writeBit 0), (0, .reset)]
    let taken := ((fresh (.eeprom .small)).respond 0 .takeDirty).2
    let played := (taken.run game).2
    (∀ x ∈ game, x.2.isGame = true) ∧ (∀ e, played = eeprom e → e.phase = .idle) ∧
      played.contents? ≠ taken.contents? ∧ (played.respond 0 .takeDirty).1 = .dirty false := by
  intro game taken played
  have haddress : (List.replicate 6 false).length = (Eeprom.fresh .small).capacity.addressBits := rfl
  have hdata : [false].length ≤ blockBits := by decide
  have hvalues : ([1, 0, 0, 0, 0, 0, 0, 0, 0] : List UInt8).map (bitAt · 0) =
      true :: false :: (List.replicate 6 false ++ [false]) := by decide
  have hplayed : played = _ :=
    run_cutOff (Eeprom.sound_fresh .small) ⟨rfl, rfl⟩ rfl haddress hdata hvalues 0
  refine ⟨by decide, ?_, ?_, rfl⟩
  · intro e he
    cases hplayed.symm.trans he
    rfl
  · rw [hplayed]
    decide +kernel

end Chip

end SaveChip
