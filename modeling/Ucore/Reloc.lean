import Ucore.Lib.ByteMemory

/-! `apply_relocate_add` of the RISC-V port. Every relocation rewrites the eight bytes at
its location, although the instruction there has only four or two. The low part of an
address is carried from one entry to the next in a local variable. -/

namespace Ucore.Reloc
open Lib

def pickBits (v : BitVec 64) (offset cnt : Nat) : BitVec 64 := (v >>> offset) &&& ((1#64 <<< cnt) - 1)

def setBits (v : BitVec 64) (offset cnt : Nat) (val : BitVec 64) : BitVec 64 :=
  (v &&& ~~~(((1#64 <<< cnt) - 1) <<< offset)) ||| ((val &&& ((1#64 <<< cnt) - 1)) <<< offset)

inductive RelocType where
  | abs64
  | branch
  | jal
  | call
  | hi20
  | lo12I
  | lo12S
  | align
  | rvcBranch
  | rvcJump
  | relax
deriving Repr, DecidableEq

structure RelocA where
  offset : BitVec 64
  info : BitVec 64
  addend : BitVec 64
deriving Repr, DecidableEq

namespace RelocA

/-- `GET_RELOC_TYPE`, as far as the type is supported -/
def type (rel : RelocA) : Option RelocType :=
  match (rel.info &&& 0xff).toNat with
  | 2 => some .abs64
  | 16 => some .branch
  | 17 => some .jal
  | 18 => some .call
  | 26 => some .hi20
  | 27 => some .lo12I
  | 28 => some .lo12S
  | 43 => some .align
  | 44 => some .rvcBranch
  | 45 => some .rvcJump
  | 51 => some .relax
  | _ => none

def sym (rel : RelocA) : BitVec 64 := rel.info >>> 8

end RelocA

/-- `*location = SET_BITS(*location, offset, cnt, val)` -/
def setField (m : Bytes) (location : Addr) (offset cnt : Nat) (val : BitVec 64) : Bytes :=
  m.store64 location (setBits (m.load64 location) offset cnt val)

/-- What an entry does at its location. The result is the memory and the local variable `lo`. -/
def patch (type : RelocType) (location : Addr) (val : BitVec 64) (m : Bytes) (lo : BitVec 64) : Bytes × BitVec 64 :=
  let tmp := val - location
  match type with
  | .abs64 => (m.store64 location val, lo)
  | .lo12I => (setField m location 20 12 (pickBits lo 0 12), lo)
  | .lo12S =>
    let m := setField m location 7 5 (pickBits lo 0 5)
    (setField m location 25 7 (pickBits lo 5 7), lo)
  | .hi20 =>
    let hi := pickBits (tmp + 0x800) 12 20
    let lo := pickBits tmp 0 12
    let m := setField m location 12 20 hi
    -- lui becomes auipc
    (setField m location 0 7 0x17, lo)
  | .relax => (m, lo)
  | .align => (m, lo)
  | .call =>
    let hi := pickBits (tmp + 0x800) 12 20
    let lo := pickBits tmp 0 12
    let m := setField m location 12 20 hi
    (setField m (location + 4) 20 12 lo, lo)
  | .rvcJump =>
    (setField m location 2 11 ((pickBits tmp 11 1 <<< 10) ||| (pickBits tmp 4 1 <<< 9) ||| (pickBits tmp 8 2 <<< 7) |||
      (pickBits tmp 10 1 <<< 6) ||| (pickBits tmp 6 1 <<< 5) ||| (pickBits tmp 7 1 <<< 4) ||| (pickBits tmp 1 3 <<< 1) |||
      pickBits tmp 5 1), lo)
  | .rvcBranch =>
    let m := setField m location 12 1 (pickBits tmp 8 1)
    let m := setField m location 10 2 (pickBits tmp 3 2)
    let m := setField m location 5 2 (pickBits tmp 6 2)
    let m := setField m location 3 2 (pickBits tmp 1 2)
    (setField m location 2 1 (pickBits tmp 5 1), lo)
  | .branch =>
    let m := setField m location 25 7 ((pickBits tmp 12 1 <<< 6) ||| pickBits tmp 5 6)
    (setField m location 7 5 ((pickBits tmp 1 4 <<< 1) ||| pickBits tmp 11 1), lo)
  | .jal =>
    (setField m location 12 20 ((pickBits tmp 20 1 <<< 19) ||| (pickBits tmp 1 10 <<< 9) ||| (pickBits tmp 11 1 <<< 8) |||
      pickBits tmp 12 8), lo)

/-- A section that is relocated: where it is, and the values of the symbols. -/
structure Target where
  base : Addr
  value : BitVec 64 → BitVec 64

namespace Target

def location (target : Target) (rel : RelocA) : Addr := target.base + rel.offset

/-- S + A -/
def val (target : Target) (rel : RelocA) : BitVec 64 := target.value rel.sym + rel.addend

end Target

/-- The loop of `apply_relocate_add`; `lo` is not initialised before it. -/
def applyRelocateAdd (target : Target) (m : Bytes) (lo : BitVec 64) : List RelocA → Int × Bytes
  | [] => (0, m)
  | rel :: rest =>
    match rel.type with
    | none => (-1, m)
    | some type =>
      let (m, lo) := patch type (target.location rel) (target.val rel) m lo
      applyRelocateAdd target m lo rest

end Ucore.Reloc
