import Mathlib.Data.Nat.Bitwise
import Mathlib.Tactic.Common

/-!
# The Interrupt Controllers

Two 8259 controllers, the second one on line 2 of the first. A byte written to the command port
starts the initialization if its bit 4 is set; the words that follow, written to the data port, give
the vector of line 0, the cascade and the mode. Any later byte at the data port is the mask.

## Main results

* `Pics.line_of_unmasked`: the vector of a line when nothing is masked.
-/

namespace X86

/-- The words of the initialization that follow the first one. -/
inductive InitWord
  | vector | cascade | mode

/-- A controller: the vector of its line 0, the lines that are masked, and the words that it waits
for. -/
structure Pic where
  vector : UInt8
  mask : UInt8
  awaits : List InitWord

namespace Pic

/-- A byte at the command port. Other commands than the initialization (ends of interrupts, reads
of registers) change neither vectors nor masks. -/
def command (p : Pic) (b : UInt8) : Pic :=
  if b.toNat / 16 % 2 = 1 then
    { p with
      mask := 0
      awaits := .vector :: ((if b.toNat / 2 % 2 = 0 then [.cascade] else [])
        ++ if b.toNat % 2 = 1 then [.mode] else []) }
  else p

/-- A byte at the data port. -/
def data (p : Pic) (b : UInt8) : Pic :=
  match p.awaits with
  | [] => { p with mask := b }
  | .vector :: rest => { p with vector := b &&& 0xf8, awaits := rest }
  | .cascade :: rest => { p with awaits := rest }
  | .mode :: rest => { p with awaits := rest }

/-- The vector of a line that is not masked. -/
def line (p : Pic) (n : ℕ) : Option UInt8 :=
  if p.mask.toNat / 2 ^ n % 2 = 1 then none else some (p.vector + UInt8.ofNat n)

/-- A controller with no mask delivers every line at its vector. -/
theorem line_of_unmasked {p : Pic} (h : p.mask = 0) (n : ℕ) :
    p.line n = some (p.vector + UInt8.ofNat n) := by
  rw [line, h, UInt8.toNat_zero, Nat.zero_div]
  rfl

end Pic

/-- Both controllers. -/
structure Pics where
  master : Pic
  slave : Pic

namespace Pics

/-- A byte is written to a port. -/
def out (c : Pics) (port : BitVec 16) (b : UInt8) : Pics :=
  if port = 0x20 then { c with master := c.master.command b }
  else if port = 0x21 then { c with master := c.master.data b }
  else if port = 0xa0 then { c with slave := c.slave.command b }
  else if port = 0xa1 then { c with slave := c.slave.data b }
  else c

/-- Bytes are written to ports. -/
def outAll (c : Pics) (bytes : List (BitVec 16 × UInt8)) : Pics :=
  bytes.foldl (fun c x => c.out x.1 x.2) c

/-- The vector of one of the sixteen lines; those from 8 on come through line 2 of the first
controller. -/
def line (c : Pics) (n : ℕ) : Option UInt8 :=
  if n < 8 then c.master.line n
  else (c.master.line 2).bind fun _ => c.slave.line (n - 8)

/-- **When nothing is masked**, every line has a vector. -/
theorem line_of_unmasked {c : Pics} (hmaster : c.master.mask = 0) (hslave : c.slave.mask = 0)
    (n : ℕ) : c.line n = some (if n < 8 then c.master.vector + UInt8.ofNat n
      else c.slave.vector + UInt8.ofNat (n - 8)) := by
  rw [line]
  split
  · exact Pic.line_of_unmasked hmaster n
  · rw [Pic.line_of_unmasked hmaster, Option.bind_some, Pic.line_of_unmasked hslave]

end Pics

end X86
