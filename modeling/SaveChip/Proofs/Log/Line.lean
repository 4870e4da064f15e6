import Mathlib.Data.List.Infix
import SaveChip.Event

/-! # Lines of the log

An event goes into the log as a line: its level and its message.  The message names blocks and
cycles, so a kind of line is known by its level and by the pieces of text around these
(`Event.reads`), and nothing else is looked at.

This is enough to tell the reports of a serial line apart (`Event.OfLine`).  What each of them says
about the phase of the chip, the phase that it opens (`Event.enters`) and the one that it closes
(`Event.leaves`), can be read from the log. -/

namespace SaveChip

/-! ### Recognising a text -/

/-- The text consists of the pieces in their order, with anything between two of them. -/
def fits : List String → List Char → Bool
  | [], text => text.isEmpty
  | [piece], text => text == piece.toList
  | piece :: next :: pieces, text =>
      piece.toList.isPrefixOf text &&
        (text.drop piece.toList.length).tails.any (fits (next :: pieces))

theorem fits_single {piece : String} {text : List Char} :
    fits [piece] text = true ↔ text = piece.toList := beq_iff_eq

theorem fits_cons {piece next : String} {pieces : List String} {text : List Char} :
    fits (piece :: next :: pieces) text = true ↔
      ∃ gap rest, text = piece.toList ++ (gap ++ rest) ∧ fits (next :: pieces) rest = true := by
  rw [fits, Bool.and_eq_true, List.isPrefixOf_iff_prefix, List.any_eq_true]
  constructor
  · rintro ⟨⟨behind, rfl⟩, rest, hrest, hfits⟩
    rw [List.drop_left, List.mem_tails] at hrest
    obtain ⟨gap, rfl⟩ := hrest
    exact ⟨gap, rest, rfl, hfits⟩
  · rintro ⟨gap, rest, rfl, hfits⟩
    refine ⟨⟨gap ++ rest, rfl⟩, rest, ?_, hfits⟩
    rw [List.drop_left, List.mem_tails]
    exact ⟨gap, rfl⟩

theorem fits_pair {first last : String} {text : List Char} :
    fits [first, last] text = true ↔ ∃ gap, text = first.toList ++ (gap ++ last.toList) := by
  rw [fits_cons]
  constructor
  · rintro ⟨gap, rest, rfl, hlast⟩
    rw [fits_single] at hlast
    exact ⟨gap, by rw [hlast]⟩
  · rintro ⟨gap, rfl⟩
    exact ⟨gap, last.toList, rfl, fits_single.mpr rfl⟩

/-! ### Digits -/

theorem exists_digitChar {base n : Nat} (hbase : 1 < base) {c : Char}
    (hc : c ∈ Nat.toDigits base n) : ∃ d, c = Nat.digitChar d := by
  induction n using Nat.strongRecOn with
  | ind n ih =>
      rw [Nat.toDigits_eq_if hbase] at hc
      split at hc
      · exact ⟨n, List.mem_singleton.mp hc⟩
      · obtain hfront | hlast := List.mem_append.mp hc
        · have hpos : 0 < n := by omega
          exact ih (n / base) (Nat.div_lt_self hpos hbase) hfront
        · exact ⟨n % base, List.mem_singleton.mp hlast⟩

namespace Event

/-! ### The texts of the reports -/

open Numeral (hex binary)

theorem toList_command (n : Nat) (phase : Phase) :
    (command n phase).message.toList = "EEPROM command ".toList ++
      ((binary 2 n).toList ++ (" -> ".toList ++ phase.name.toList)) := by
  have htext : (command n phase).message =
      "EEPROM command " ++ binary 2 n ++ " -> " ++ phase.name := rfl
  simp only [htext, String.toList_append, List.append_assoc]

theorem toList_addressed (block : UInt32) (phase : Phase) :
    (addressed block phase).message.toList = "EEPROM block ".toList ++
      ((hex block.toNat).toList ++ (" -> ".toList ++ phase.name.toList)) := by
  have htext : (addressed block phase).message =
      "EEPROM block " ++ hex block.toNat ++ " -> " ++ phase.name := rfl
  simp only [htext, String.toList_append, List.append_assoc]

theorem toList_written (block : UInt32) (deadline : UInt64) :
    (written block deadline).message.toList = "EEPROM block ".toList ++
      ((hex block.toNat).toList ++
        (" written, busy until cycle ".toList ++ Nat.toDigits 10 deadline.toNat)) := by
  have htext : (written block deadline).message =
      "EEPROM block " ++ hex block.toNat ++ " written, busy until cycle " ++
        deadline.toNat.repr := rfl
  simp only [htext, String.toList_append, Nat.toList_repr, List.append_assoc]

theorem toList_blockRead (block : UInt32) :
    (blockRead block).message.toList = "EEPROM block ".toList ++
      ((hex block.toNat).toList ++ " read".toList) := by
  have htext : (blockRead block).message =
      "EEPROM block " ++ hex block.toNat ++ " read" := rfl
  simp only [htext, String.toList_append, List.append_assoc]

theorem command_ne_block {rest rest' : List Char} :
    "EEPROM command ".toList ++ rest ≠ "EEPROM block ".toList ++ rest' := by
  intro htext
  have hletter : some 'c' = some 'b' := congrArg (fun text => text[7]?) htext
  cases hletter

/-- A line ends in the name of one data phase only. -/
theorem name_inj {p q : Phase} (hp : p.transfersData = true) (hq : q.transfersData = true)
    {front front' : List Char}
    (h : front ++ (" -> ".toList ++ p.name.toList) = front' ++ (" -> ".toList ++ q.name.toList)) :
    p = q := by
  have hwrite : ¬" -> ReadData".toList <:+ " -> WriteData".toList := by decide
  cases p <;> cases hp <;> cases q <;> cases hq
  · rfl
  · have hsuffix := List.suffix_of_suffix_length_le ⟨front', h.symm⟩ ⟨front, rfl⟩ (by decide)
    exact absurd hsuffix hwrite
  · have hsuffix := List.suffix_of_suffix_length_le ⟨front, h⟩ ⟨front', rfl⟩ (by decide)
    exact absurd hsuffix hwrite
  · rfl

theorem comma_notMem_blockRead (block : UInt32) : ',' ∉ (blockRead block).message.toList := by
  rw [toList_blockRead, hex, String.toList_append, String.toList_ofList]
  intro hcomma
  have hdigits : ',' ∈ Nat.toDigits 16 block.toNat := by simpa using hcomma
  obtain ⟨d, hd⟩ := exists_digitChar (by decide) hdigits
  exact Nat.digitChar_ne ',' (by decide) hd.symm

theorem exists_getLast?_written (block : UInt32) (deadline : UInt64) :
    ∃ c, c.isDigit = true ∧ (written block deadline).message.toList.getLast? = some c := by
  have hdigits : Nat.toDigits 10 deadline.toNat ≠ [] := Nat.toDigits_ne_nil
  refine ⟨(Nat.toDigits 10 deadline.toNat).getLast hdigits, ?_, ?_⟩
  · exact Nat.isDigit_of_mem_toDigits (by decide) (by decide) (List.getLast_mem hdigits)
  · rw [toList_written]
    simp only [List.getLast?_append, List.getLast?_eq_getLast_of_ne_nil hdigits]
    rfl

/-! ### What a report says about the phase -/

/-- What the line of a serial chip can report. -/
def OfLine : Event → Prop
  | command n phase => n ≤ 3 ∧ phase = .ofCommand n
  | addressed _ phase => phase.transfersData = true
  | undefinedCommand | readUnterminated | written .. | writeUnterminated | blockRead _ => True
  | created _ | reset | ramFileLength _ | eepromFileLength .. => False

/-- The event is the report that opens the phase. -/
def enters (p : Phase) : Event → Bool
  | command _ phase | addressed _ phase => decide (phase = p)
  | _ => false

/-- The event is the report that ends the phase. -/
def leaves (p : Phase) : Event → Bool
  | addressed _ .readData => decide (.readAddress = p)
  | addressed .. => decide (.writeAddress = p)
  | written .. => decide (.writeData = p)
  | blockRead _ => decide (.readData = p)
  | _ => false

/-- The line of the event has this level, and its text consists of these pieces. -/
def reads (x : Event) (level : Level) (pieces : List String) : Bool :=
  decide (x.level = level) && fits pieces x.message.toList

/-- How many lines of the log have this level and consist of these pieces. -/
def lines (log : List Event) (level : Level) (pieces : List String) : Nat :=
  log.countP fun x => x.reads level pieces

variable {x : Event}

theorem lines_eq {log : List Event} {level : Level} {pieces : List String} {p : Event → Bool}
    (hlog : ∀ x ∈ log, x.OfLine) (hreads : ∀ {x : Event}, x.OfLine → x.reads level pieces = p x) :
    lines log level pieces = log.countP p :=
  List.countP_congr fun x hx => by rw [hreads (hlog x hx)]

theorem reads_of_level {level : Level} (h : x.level = level) (pieces : List String) :
    x.reads level pieces = fits pieces x.message.toList := by
  rw [reads, decide_eq_true h, Bool.true_and]

/-- The line of a command says which phase it opens. -/
theorem reads_command (h : x.OfLine) {n : Nat} (hn : n ≤ 3) :
    x.reads .trace [(command n (.ofCommand n)).message] = x.enters (.ofCommand n) := by
  cases x with
  | command m phase =>
      obtain ⟨hm, rfl⟩ := h
      have hm : m = 0 ∨ m = 1 ∨ m = 2 ∨ m = 3 := by omega
      have hn : n = 0 ∨ n = 1 ∨ n = 2 ∨ n = 3 := by omega
      obtain rfl | rfl | rfl | rfl := hm <;> obtain rfl | rfl | rfl | rfl := hn <;> rfl
  | addressed block phase =>
      have hlevel : (addressed block phase).level = .trace := rfl
      have hother : ¬fits [(command n (.ofCommand n)).message]
          (addressed block phase).message.toList = true := by
        rw [fits_single, toList_addressed, toList_command]
        exact fun htext => command_ne_block htext.symm
      rw [reads_of_level hlevel, Bool.eq_false_iff.mpr hother]
      exact (decide_eq_false (Phase.ne_ofCommand h n)).symm
  | _ => rfl

/-- The line that opens a data phase names it at its end. -/
theorem reads_addressed (h : x.OfLine) {p : Phase} (hp : p.transfersData = true) :
    x.reads .trace ["EEPROM block ", " -> " ++ p.name] = x.enters p := by
  cases x with
  | command n phase =>
      obtain ⟨-, rfl⟩ := h
      have hlevel : (command n (.ofCommand n)).level = .trace := rfl
      have hother : ¬fits ["EEPROM block ", " -> " ++ p.name]
          (command n (.ofCommand n)).message.toList = true := by
        rw [fits_pair, toList_command]
        rintro ⟨gap, htext⟩
        exact command_ne_block htext
      rw [reads_of_level hlevel, Bool.eq_false_iff.mpr hother]
      exact (decide_eq_false (Phase.ne_ofCommand hp n).symm).symm
  | addressed block q =>
      have hlevel : (addressed block q).level = .trace := rfl
      have hfits : fits ["EEPROM block ", " -> " ++ p.name]
          (addressed block q).message.toList = true ↔ q = p := by
        rw [fits_pair, toList_addressed]
        constructor
        · rintro ⟨gap, htext⟩
          rw [List.append_cancel_left_eq, String.toList_append] at htext
          exact name_inj h hp htext
        · rintro rfl
          exact ⟨_, by rw [String.toList_append]⟩
      rw [reads_of_level hlevel, Bool.eq_iff_iff, hfits, enters, decide_eq_true_eq]
  | _ => rfl

/-- The line of a write is known by its text before the deadline, and by the comma in it. -/
theorem reads_written (h : x.OfLine) :
    x.reads .debug ["EEPROM block ", " written, busy until cycle ", ""] = x.leaves .writeData := by
  cases x with
  | written block deadline =>
      have hlevel : (written block deadline).level = .debug := rfl
      have hfits : fits ["EEPROM block ", " written, busy until cycle ", ""]
          (written block deadline).message.toList = true := by
        rw [fits_cons, toList_written]
        refine ⟨_, _, rfl, ?_⟩
        rw [fits_pair]
        exact ⟨_, congrArg _ (List.append_nil _).symm⟩
      rw [reads_of_level hlevel, hfits]
      rfl
  | blockRead block =>
      have hlevel : (blockRead block).level = .debug := rfl
      have hother : ¬fits ["EEPROM block ", " written, busy until cycle ", ""]
          (blockRead block).message.toList = true := by
        rw [fits_cons]
        rintro ⟨gap, rest, htext, hrest⟩
        obtain ⟨gap', rfl⟩ := fits_pair.mp hrest
        apply comma_notMem_blockRead block
        rw [htext]
        simp
      rw [reads_of_level hlevel, Bool.eq_false_iff.mpr hother]
      rfl
  | addressed _ phase => cases phase <;> rfl
  | reset => cases h
  | _ => rfl

/-- The line of a read is known by its end. -/
theorem reads_blockRead (h : x.OfLine) :
    x.reads .debug ["EEPROM block ", " read"] = x.leaves .readData := by
  cases x with
  | written block deadline =>
      have hlevel : (written block deadline).level = .debug := rfl
      have hother : ¬fits ["EEPROM block ", " read"]
          (written block deadline).message.toList = true := by
        rw [fits_pair]
        rintro ⟨gap, htext⟩
        obtain ⟨c, hc, hlast⟩ := exists_getLast?_written block deadline
        rw [htext, ← List.append_assoc, List.getLast?_append] at hlast
        cases Option.some.inj hlast
        cases hc
      rw [reads_of_level hlevel, Bool.eq_false_iff.mpr hother]
      rfl
  | blockRead block =>
      have hlevel : (blockRead block).level = .debug := rfl
      have hfits : fits ["EEPROM block ", " read"] (blockRead block).message.toList = true := by
        rw [fits_pair]
        exact ⟨_, toList_blockRead block⟩
      rw [reads_of_level hlevel, hfits]
      rfl
  | addressed _ phase => cases phase <;> rfl
  | reset => cases h
  | _ => rfl

theorem reads_undefined (h : x.OfLine) :
    x.reads .warn ["EEPROM command 01 is undefined, chip stops responding until reset"] =
      decide (x = undefinedCommand) := by
  cases x with
  | ramFileLength | eepromFileLength => cases h
  | _ => rfl

end Event

end SaveChip
