import Valkyrie.Fs.Vnode

/-!
# Character devices

`dev/Console.cc`, and the devices that the virtual file system knows. A read waits until the
driver delivers a character, so what comes in is a parameter: the list of the characters still
to come. A read for which they do not suffice never returns.

The console reads a line. A backspace takes the last character back, and overwrites it with a
zero. Whatever comes in, nothing is written past the end of the buffer
(`Valkyrie.Device.ensures_read`).
-/

namespace Valkyrie

open Exec

namespace Console

/-- `buf[i] = c`, of a buffer of which this much was written so far. -/
def store (i : ℕ) (c : UInt8) (buf : List UInt8) : List UInt8 :=
  if i < buf.length then buf.set i c else buf ++ [c]

/-- The character that a backspace key sends. -/
def delete : UInt8 := 0x7f

/-- What is written for a backspace: `\b`, a blank and `\b`. -/
def rubout : List UInt8 := [8, 32, 8]

/-- The loop of `Console::read`: the result, the buffer as far as it was written, and what was
written to the console. -/
def readLoop (size : ℕ) :
    List UInt8 → ℕ → List UInt8 → List UInt8 → Exec (ℕ × List UInt8 × List UInt8)
  | [], i, buf, echo => if i < size then .error .outOfFuel else return (size, buf, echo)
  | c :: input, i, buf, echo =>
    if i < size then
      if c = delete then
        if 0 < i then readLoop size input (i - 1) (store (i - 1) 0 buf) (echo ++ rubout)
        else readLoop size input i buf echo
      else if c = 10 then return (i, buf, echo)
      else readLoop size input (i + 1) (store i c buf) echo
    else return (size, buf, echo)

/-- `Console::read`. -/
def read (input : List UInt8) (size : ℕ) : Exec (ℕ × List UInt8 × List UInt8) :=
  readLoop size input 0 [] []

theorem length_store_of_le {size i : ℕ} {c : UInt8} {buf : List UInt8} (hi : i < size)
    (hbuf : i ≤ buf.length ∧ buf.length ≤ size) :
    i + 1 ≤ (store i c buf).length ∧ (store i c buf).length ≤ size := by
  rw [store]
  split_ifs with hlt
  · rw [List.length_set]
    exact ⟨hlt, hbuf.2⟩
  · rw [List.length_append, List.length_singleton]
    omega

/-- The index stays within what was written, and that stays within the buffer. -/
theorem ensures_readLoop {size : ℕ} (input : List UInt8) : ∀ {i : ℕ} {buf echo : List UInt8},
    i ≤ buf.length ∧ buf.length ≤ size →
      Ensures (readLoop size input i buf echo) fun r => r.1 ≤ size ∧ r.2.1.length ≤ size := by
  induction input with
  | nil =>
    intro i buf echo hbuf
    rw [readLoop]
    split_ifs
    · exact ensures_error _
    · exact ensures_pure ⟨le_rfl, hbuf.2⟩
  | cons c input ih =>
    intro i buf echo hbuf
    rw [readLoop]
    split_ifs with hi hdelete hpos hnewline
    · obtain ⟨hle, hsize⟩ := length_store_of_le (c := 0) (show i - 1 < size by omega)
        (show i - 1 ≤ buf.length ∧ buf.length ≤ size by omega)
      exact ih ⟨by omega, hsize⟩
    · exact ih hbuf
    · exact ensures_pure ⟨hi.le, hbuf.2⟩
    · exact ih (length_store_of_le hi hbuf)
    · exact ensures_pure ⟨le_rfl, hbuf.2⟩

theorem ensures_read (input : List UInt8) (size : ℕ) :
    Ensures (read input size) fun r => r.1 ≤ size ∧ r.2.1.length ≤ size :=
  ensures_readLoop input ⟨le_rfl, Nat.zero_le _⟩

end Console

/-- `Device`, with the characters that the driver delivers if it is a character device. -/
structure Device where
  name : Name
  input : Option (List UInt8)

namespace Device

/-- `Device::major`. -/
def major (dev : ℕ) : ℕ := dev >>> 20

/-- The name `console`. -/
def console : Name := [99, 111, 110, 115, 111, 108, 101]

/-- `VFS::find_registered_device`. -/
def findRegisteredDevice (dev : ℕ) (devices : List (ℕ × Device)) : Option Device :=
  (devices.find? fun e => major dev = major e.1).map Prod.snd

/-- The loop over `read_char`. -/
def readChars : ℕ → List UInt8 → Exec (List UInt8)
  | 0, _ => return []
  | _ + 1, [] => .error .outOfFuel
  | n + 1, c :: input => do return c :: (← readChars n input)

/-- The part of `VFS::read` for a character device: the bytes that were stored through the
buffer. -/
def read (dev len : ℕ) (devices : List (ℕ × Device)) : Exec (List UInt8) :=
  match findRegisteredDevice dev devices with
  | none => .error .wild
  | some cdev =>
    match cdev.input with
    | none => .error .wild
    | some input =>
      if cdev.name = console then do return (← Console.read input len).2.1
      else readChars len input

theorem ensures_readChars (n : ℕ) :
    ∀ input : List UInt8, Ensures (readChars n input) fun bytes => bytes.length = n := by
  induction n with
  | zero => exact fun input => ensures_pure rfl
  | succ n ih =>
    intro input
    cases input with
    | nil => exact ensures_error _
    | cons c input =>
      refine (ih input).bind fun bytes hbytes => ensures_pure ?_
      rw [List.length_cons, hbytes]

/-- **No character device writes past the end of the buffer.** -/
theorem ensures_read (dev len : ℕ) (devices : List (ℕ × Device)) :
    Ensures (read dev len devices) fun bytes => bytes.length ≤ len := by
  rw [read]
  split
  · exact ensures_error _
  · split
    · exact ensures_error _
    · split_ifs
      · exact (Console.ensures_read _ len).bind fun r hr => ensures_pure hr.2
      · exact (ensures_readChars len _).mono fun bytes hbytes => hbytes.le

end Device

end Valkyrie
