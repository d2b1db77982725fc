import CodeIndex.Text.Basic

/-!
# Moments

A moment of the calendar as the index shows it: with a fraction of a second only if there is one.
-/

namespace CodeIndex

structure Timestamp where
  year : Nat
  month : Nat
  day : Nat
  hour : Nat
  minute : Nat
  second : Nat
  microsecond : Nat
deriving DecidableEq

namespace Timestamp

def padded (width n : Nat) : Text :=
  let ds := Nat.toDigits 10 n
  List.replicate (width - ds.length) '0' ++ ds

def clock (t : Timestamp) : Text :=
  padded 2 t.hour ++ [':'] ++ padded 2 t.minute ++ [':'] ++ padded 2 t.second

def monthAndDay (t : Timestamp) : Text := ['-'] ++ padded 2 t.month ++ ['-'] ++ padded 2 t.day

def iso (t : Timestamp) : Text :=
  padded 4 t.year ++ t.monthAndDay ++ ['T'] ++ t.clock ++
    if t.microsecond = 0 then [] else '.' :: padded 6 t.microsecond

def display (t : Timestamp) : Text :=
  Nat.toDigits 10 t.year ++ t.monthAndDay ++ [' '] ++ t.clock

end Timestamp

end CodeIndex
