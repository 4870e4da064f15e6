import SaveChip.Proofs.Chip.Reachable
import SaveChip.Proofs.Eeprom.Frame
import SaveChip.Proofs.Eeprom.Grammar
import SaveChip.Proofs.Storage.Overlay

/-! # The chip follows the grammar of the line

The chip knows no frames, only one bit after another.  `Eeprom.afterParse` reads the registers and
the storage off a parse, and `send_parse` says that the bits take a chip at rest to just this state,
wherever the series breaks off, if the clock stands still meanwhile: null commands do nothing
(`send_nulls`), one frame has its effect (`send_frame`), and what follows a whole one is lost because
the chip is then deaf or busy (`send_deaf`, `send_busy`). -/

namespace SaveChip

/-! ### Bits that the chip ignores -/

namespace Eeprom

variable {e : Eeprom} {now : UInt64}

theorem lt_busyUntil (h : now < 0xFFFFFFFFFFFFFFFF) : now < busyUntil now := by
  have hcycles : busyCycles.toNat = 0x1A750 := rfl
  have hnow : now.toNat < 0xFFFFFFFFFFFFFFFF := UInt64.lt_iff_toNat_lt.mp h
  rw [UInt64.lt_iff_toNat_lt, toNat_busyUntil, hcycles, UInt64.size]
  omega

/-- The chip is deaf while it sends data, and after the undefined command. -/
theorem send_deaf (hp : e.phase = .invalid ∨ e.phase = .readData) (sent : List (UInt64 × Bool)) :
    e.send sent = e := by
  induction sent with
  | nil => rfl
  | cons x sent ih =>
      have hstep : e.clockIn x.1 x.2 = e := by
        obtain hp | hp := hp
        · rw [clockIn, hp]
        · rw [clockIn, hp]
      rw [send, hstep, ih]

/-- Until its deadline a busy chip takes no bits. -/
theorem clockIn_busy (hp : e.phase = .idle) (hready : e.ready = false) (hlt : now < e.deadline)
    (bit : Bool) : e.clockIn now bit = e := by
  have hsettle : e.settle now = e := if_neg (UInt64.not_le.mpr hlt)
  rw [clockIn, hp]
  simp only [decode, hsettle, hready]
  rfl

theorem send_busy (hp : e.phase = .idle) (hready : e.ready = false)
    {sent : List (UInt64 × Bool)} (hlt : ∀ x ∈ sent, x.1 < e.deadline) : e.send sent = e := by
  induction sent with
  | nil => rfl
  | cons x sent ih =>
      rw [send, clockIn_busy hp hready (hlt x List.mem_cons_self),
        ih fun y hy => hlt y (List.mem_cons_of_mem x hy)]

/-! ### What a parse leaves of the chip -/

/-- Null commands leave only the command itself in the registers. -/
def afterNulls (e : Eeprom) (nulls : Nat) : Eeprom :=
  if nulls = 0 then e else { e with address := 0, command := 0 }

/-- The block whose address the bits spell. -/
def named (e : Eeprom) (address : List Bool) : Nat := e.capacity.blockOf (shiftBits 0 address)

/-- What a frame leaves of a chip at rest if the clock stands still. -/
def afterFrame (e : Eeprom) (now : UInt64) : Frame → Eeprom
  | .command [] => e
  | .command (bit :: _) => { e with address := 0, received := 1, command := bit.toNat }
  | .undefined _ => { e with address := 0, command := 1, phase := .invalid }
  | .writeAddress address =>
      { e with
        address := UInt32.ofNat (2 * shiftBits 0 address)
        received := address.length
        command := 2
        phase := .writeAddress }
  | .writeData address data =>
      { e with
        address := UInt32.ofNat (e.named address)
        shifted := data.length
        command := 2
        phase := .writeData
        storage :=
          e.storage.setWord (e.named address) (overlay (e.storage.word (e.named address)) data) }
  | .write address data _ _ =>
      { e with
        ready := false
        address := UInt32.ofNat (e.named address)
        command := 2
        deadline := busyUntil now
        storage := e.storage.setWord (e.named address) (UInt64.ofNat (shiftBits 0 data))
        dirty := true }
  | .readAddress address =>
      { e with
        address := UInt32.ofNat (2 * shiftBits 0 address)
        received := address.length
        command := 3
        phase := .readAddress }
  | .read address _ _ =>
      { e with address := UInt32.ofNat (e.named address), command := 3, phase := .readData }

def afterParse (e : Eeprom) (now : UInt64) (p : Parse) : Eeprom :=
  (e.afterNulls p.nulls).afterFrame now p.frame

/-! ### Null commands -/

theorem Sound.send (h : e.Sound) (sent : List (UInt64 × Bool)) : (e.send sent).Sound := by
  induction sent generalizing e with
  | nil => exact h
  | cons x sent ih => exact ih (h.clockIn x.1 x.2)

theorem resting_afterNulls (hr : e.Resting) (nulls : Nat) : (e.afterNulls nulls).Resting := by
  unfold afterNulls
  split
  · exact hr
  · exact ⟨hr.phase, hr.received⟩

theorem ready_afterNulls (hready : e.ready = true) (nulls : Nat) :
    (e.afterNulls nulls).ready = true := by
  unfold afterNulls
  split <;> exact hready

@[simp] theorem capacity_afterNulls (e : Eeprom) (nulls : Nat) :
    (e.afterNulls nulls).capacity = e.capacity := by
  unfold afterNulls
  split <;> rfl

theorem afterNulls_succ (e : Eeprom) (nulls : Nat) :
    (e.afterNulls 1).afterNulls nulls = e.afterNulls (nulls + 1) := by
  cases nulls <;> rfl

theorem send_nulls (hr : e.Resting) (hready : e.ready = true) (now : UInt64) (nulls : Nat) :
    e.send ((List.replicate (2 * nulls) false).map (now, ·)) = e.afterNulls nulls := by
  induction nulls generalizing e with
  | zero => rfl
  | succ nulls ih =>
      have hnull : e.send [(now, false), (now, false)] = e.afterNulls 1 := by
        rw [send_null hr (.inl hready)]
        simp only [afterNulls, hready, hr.received, hr.phase]
        rfl
      have hrest := ih (resting_afterNulls hr 1) (ready_afterNulls hready 1)
      rw [afterNulls_succ] at hrest
      rw [← hrest, ← hnull]
      rfl

/-! ### One frame -/

/-- The chip once it has received a command. -/
def opened (e : Eeprom) (command : Nat) : Eeprom :=
  { e with address := 0, command := command, phase := .ofCommand command }

/-- Two bits open the phase of their command. -/
theorem send_opening (hr : e.Resting) (hready : e.ready = true) (b b' : Bool) (rest : List Bool) :
    e.send ((b :: b' :: rest).map (now, ·)) =
      (e.opened (2 * b.toNat + b'.toNat)).send (rest.map (now, ·)) := by
  have hopened := send_command hr (t := now) (.inl hready) now b b'
  rw [send, send, send] at hopened
  rw [List.map_cons, List.map_cons, send, send, hopened, ← hready, ← hr.received, opened]

theorem size_mod_eight (h : e.Sound) : e.storage.size % 8 = 0 := by
  rw [h.size]
  cases e.capacity <;> rfl

theorem named_fits (h : e.Sound) (address : List Bool) :
    8 * e.named address + 8 ≤ e.storage.size := by
  rw [h.size]
  exact e.capacity.blockOf_fits _

theorem toNat_named (e : Eeprom) (address : List Bool) :
    (UInt32.ofNat (e.named address)).toNat = e.named address := block_eq ..

theorem map_snd_map (now : UInt64) (bits : List Bool) :
    (bits.map (now, ·)).map Prod.snd = bits := by
  rw [List.map_map]
  exact List.map_id bits

/-- The address of a write, and data bits after it. -/
theorem send_storing (h : e.Sound) (hr : e.Resting) (hready : e.ready = true)
    {address data : List Bool} (haddress : address.length = e.capacity.addressBits)
    (hdata : data.length ≤ blockBits) (now : UInt64) :
    e.send ((true :: false :: (address ++ data)).map (now, ·)) =
      e.afterFrame now (.writeData address data) := by
  have hlength : (address.map (now, ·)).length = (e.opened 2).capacity.addressBits := by
    rw [List.length_map]
    exact haddress
  have haddressed := send_writeAddress (e := e.opened 2) rfl hr.received rfl hlength
  have hstored := send_data
    (e := { e with
      address := UInt32.ofNat (e.named address)
      received := 0
      command := 2
      phase := .writeData })
    rfl (data.map (now, ·))
    (by rw [List.length_map]; dsimp only; rw [hr.shifted h, Nat.zero_add]; exact hdata)
  rw [map_snd_map] at haddressed hstored
  rw [List.length_map] at hstored
  rw [send_opening hr hready, List.map_append, send_append]
  change ((e.opened 2).send _).send _ = _
  rw [haddressed]
  refine hstored.trans ?_
  simp only [block, toNat_named, hr.shifted h, hr.received, Nat.zero_add, afterFrame,
    Storage.setBits_eq_setWord (named_fits h address) (size_mod_eight h) hdata]

/-- A frame takes a chip at rest where `afterFrame` says. -/
theorem send_frame (h : e.Sound) (hr : e.Resting) (hready : e.ready = true)
    (hnow : now < 0xFFFFFFFFFFFFFFFF) {f : Frame} (hf : f.Fits e.capacity) :
    e.send (f.bits.map (now, ·)) = e.afterFrame now f := by
  cases f with
  | command bits =>
      match bits, hf with
      | [], _ => rfl
      | [bit], _ =>
          change e.clockIn now bit = _
          rw [clockIn_first hr (.inl hready), ← hready]
          rfl
  | undefined ignored =>
      rw [Frame.bits, send_opening hr hready]
      exact send_deaf (.inl rfl) _
  | writeAddress address =>
      have hphase : (e.opened 2).phase = addressPhase false := rfl
      have hroom : e.received + address.length < e.capacity.addressBits := by
        rw [hr.received, Nat.zero_add]
        exact hf
      have haddressed := send_address (n := 0) hphase rfl (address.map (now, ·))
        (by rw [List.length_map]; exact hroom)
      rw [map_snd_map, List.length_map] at haddressed
      rw [Frame.bits, send_opening hr hready]
      refine haddressed.trans ?_
      simp only [opened, afterFrame, hr.received, Nat.zero_add]
      rfl
  | writeData address data => exact send_storing h hr hready hf.1 hf.2 now
  | write address data terminator ignored =>
      obtain ⟨haddress, hdata⟩ := hf
      have hstored := send_storing h hr hready haddress (Nat.le_of_eq hdata) now
      have hended := clockIn_terminator (e := e.afterFrame now (.writeData address data))
        rfl hdata now terminator
      have hsplit : (Frame.write address data terminator ignored).bits =
          (true :: false :: (address ++ data)) ++ terminator :: ignored := by
        simp [Frame.bits]
      rw [hsplit, List.map_append, send_append, hstored, List.map_cons, send, hended, send_busy]
      · simp only [afterFrame, overlay_of_length hdata, hr.shifted h, hr.phase]
      · rfl
      · rfl
      · intro x hx
        obtain ⟨bit, -, rfl⟩ := List.mem_map.mp hx
        exact lt_busyUntil hnow
  | readAddress address =>
      have hphase : (e.opened 3).phase = addressPhase true := rfl
      have hroom : e.received + address.length < e.capacity.addressBits + 1 := by
        rw [hr.received, Nat.zero_add]
        exact Nat.lt_succ_of_le hf
      have haddressed := send_address (n := 0) hphase rfl (address.map (now, ·))
        (by rw [List.length_map]; exact hroom)
      rw [map_snd_map, List.length_map] at haddressed
      rw [Frame.bits, send_opening hr hready]
      refine haddressed.trans ?_
      simp only [opened, afterFrame, hr.received, Nat.zero_add]
      rfl
  | read address trailing ignored =>
      have hlength : (address.map (now, ·)).length = (e.opened 3).capacity.addressBits := by
        rw [List.length_map]
        exact hf
      have haddressed := send_readAddress (e := e.opened 3) rfl hr.received rfl hlength now trailing
      have hsplit : (address ++ trailing :: ignored).map (now, ·) =
          (address.map (now, ·) ++ [(now, trailing)]) ++ ignored.map (now, ·) := by
        simp
      rw [map_snd_map] at haddressed
      rw [Frame.bits, send_opening hr hready, hsplit, send_append]
      change ((e.opened 3).send _).send _ = _
      rw [haddressed, send_deaf]
      · simp only [opened, afterFrame, named, hr.received]
      · exact .inr rfl

/-- **The bits of a parse take a chip at rest where `afterParse` says.** -/
theorem send_parse (h : e.Sound) (hr : e.Resting) (hready : e.ready = true)
    (hnow : now < 0xFFFFFFFFFFFFFFFF) {p : Parse} (hp : p.Fits e.capacity) :
    e.send (p.bits.map (now, ·)) = e.afterParse now p := by
  have hnulls := send_nulls hr hready now p.nulls
  have hsound : (e.afterNulls p.nulls).Sound := by
    rw [← hnulls]
    exact h.send _
  have hframe := send_frame hsound (resting_afterNulls hr p.nulls)
    (ready_afterNulls hready p.nulls) hnow (f := p.frame) (by rw [capacity_afterNulls]; exact hp)
  rw [Parse.bits, List.map_append, send_append, hnulls, hframe, afterParse]

end Eeprom

/-! ### Requests -/

namespace Chip

/-- Requests to send values are bits on the line. -/
theorem run_writeBits (e : Eeprom) (sent : List (UInt64 × UInt8)) :
    (eeprom e).run (sent.map fun x => (x.1, .writeBit x.2)) =
      (List.replicate sent.length .done, eeprom (e.send (sent.map fun x => (x.1, bitAt x.2 0)))) := by
  induction sent generalizing e with
  | nil => rfl
  | cons x sent ih =>
      have hstep : (eeprom e).respond x.1 (.writeBit x.2) =
          (.done, eeprom (e.clockIn x.1 (bitAt x.2 0))) := rfl
      rw [List.map_cons, run, hstep, ih, List.map_cons, Eeprom.send, List.length_cons,
        List.replicate_succ]

/-- So are values that are all sent at one moment. -/
theorem run_values (e : Eeprom) (now : UInt64) (values : List UInt8) :
    ((eeprom e).run (values.map fun value => (now, .writeBit value))).2 =
      eeprom (e.send ((values.map (bitAt · 0)).map (now, ·))) := by
  have hrun := run_writeBits e (values.map (now, ·))
  rw [List.map_map, List.map_map] at hrun
  rw [List.map_map]
  exact congrArg Prod.snd hrun

/-- **The chip parses the frames of the line**: every series of bits has one parse that fits, and if
it is sent to a chip at rest while the clock stands still, it leaves the chip as the parse says. -/
theorem parse_reached {c : Capacity} {history : List (UInt64 × Request)} {e : Eeprom}
    (he : reached (.eeprom c) history = eeprom e) (hphase : e.phase = .idle)
    (hready : e.ready = true) (hreceived : e.received = 0) {now : UInt64}
    (hnow : now < 0xFFFFFFFFFFFFFFFF) (values : List UInt8) :
    let bits := values.map (bitAt · 0)
    (∀ p, parse c bits = p ↔ p.Fits c ∧ p.bits = bits) ∧
      ((eeprom e).run (values.map fun value => (now, .writeBit value))).2 =
        eeprom (e.afterParse now (parse c bits)) := by
  intro bits
  have hsound := sound_reached (.eeprom c) history
  have hkind := kind_reached (.eeprom c) history
  rw [he] at hsound hkind
  cases Kind.eeprom.inj hkind
  obtain ⟨hfits, hbits⟩ := bits_parse e.capacity bits
  refine ⟨fun p => parse_eq_iff, ?_⟩
  have hsent := Eeprom.send_parse hsound ⟨hphase, hreceived⟩ hready hnow hfits
  rw [hbits] at hsent
  rw [run_values, hsent]

/-- A null command, a write to the last block, and bits that come too early. -/
theorem parse_reached_write :
    let values : List UInt8 :=
      [0, 0, 1, 0, 1, 1, 1, 1, 1, 1] ++ (msbFirst 64 0x0123456789ABCDEF).map Bool.toUInt8 ++ [1, 1, 0]
    ∃ e : Eeprom,
      ((fresh (.eeprom .small)).run (values.map fun value => (5, .writeBit value))).2 = eeprom e ∧
        e.phase = .idle ∧ e.ready = false ∧ e.received = 0 ∧ e.address = 0x3F ∧
        e.deadline = 5 + 0x1A750 ∧ e.storage.word 0x3F = 0x0123456789ABCDEF := by
  intro values
  have hfresh : reached (.eeprom .small) [] = eeprom (.fresh .small) := rfl
  have hnow : (5 : UInt64) < 0xFFFFFFFFFFFFFFFF := by decide
  obtain ⟨hparse, hrun⟩ := parse_reached hfresh rfl rfl rfl hnow values
  have hvalues := (hparse ⟨1, .write (List.replicate 6 true) (msbFirst 64 0x0123456789ABCDEF) true
    [true, false]⟩).mpr ⟨⟨rfl, rfl⟩, rfl⟩
  rw [hvalues] at hrun
  have hfits : 8 * 0x3F + 8 ≤ (Storage.erased Capacity.small.bytes).size := by
    rw [Storage.size_erased]
    decide
  exact ⟨_, hrun, rfl, rfl, rfl, rfl, rfl, Storage.word_setWord hfits _ 0x3F⟩

end Chip

end SaveChip
