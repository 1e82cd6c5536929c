import Mathlib.Tactic

/-!
# Files of the host

A file is the list of its bytes. A read gives what there is from a position on. A write
replaces bytes and adds them at the end; a gap between the end of the file and the position
is filled.
-/
namespace Nachos.HostFiles

variable {β : Type*} {fill : β} {file data : List β} {p q n : ℕ}

def readAt (file : List β) (n p : ℕ) : List β := (file.drop p).take n

/-- The file up to `p`, filled up if it ends before. -/
def upTo (fill : β) (file : List β) (p : ℕ) : List β :=
  (file ++ List.replicate (p - file.length) fill).take p

def writeAt (fill : β) (file data : List β) (p : ℕ) : List β :=
  if data = [] then file else upTo fill file p ++ data ++ file.drop (p + data.length)

theorem readAt_getElem? (h : q < n) : (readAt file n p)[q]? = file[p + q]? := by
  rw [readAt, List.getElem?_take_of_lt h, List.getElem?_drop]

theorem readAt_length (file : List β) (n p : ℕ) :
    (readAt file n p).length = min n (file.length - p) := by
  rw [readAt, List.length_take, List.length_drop]

theorem upTo_length (fill : β) (file : List β) (p : ℕ) : (upTo fill file p).length = p := by
  rw [upTo, List.length_take, List.length_append, List.length_replicate]
  omega

theorem writeAt_zero (fill : β) (file data : List β) :
    writeAt fill file data 0 = data ++ file.drop data.length := by
  rw [writeAt]
  split_ifs with hdata
  · rw [hdata]
    rfl
  · rw [upTo, List.take_zero, List.nil_append, Nat.zero_add]

/-- What was written. -/
theorem writeAt_getElem?_add (fill : β) (file : List β) (h : q < data.length) (p : ℕ) :
    (writeAt fill file data p)[p + q]? = data[q]? := by
  have hdata : data ≠ [] := List.ne_nil_of_length_pos (by omega)
  have hlen := upTo_length fill file p
  rw [writeAt, if_neg hdata, List.append_assoc, List.getElem?_append_right (by omega), hlen,
    Nat.add_sub_cancel_left, List.getElem?_append_left h]

/-- What was written is read back. -/
theorem readAt_writeAt (fill : β) (file data : List β) (p : ℕ) :
    readAt (writeAt fill file data p) data.length p = data := by
  apply List.ext_getElem?
  intro q
  by_cases hq : q < data.length
  · rw [readAt_getElem? hq, writeAt_getElem?_add fill file hq]
  · have hlen : (readAt (writeAt fill file data p) data.length p).length ≤ q := by
      rw [readAt_length]
      omega
    rw [List.getElem?_eq_none hlen, List.getElem?_eq_none (not_lt.mp hq)]

/-- What was in the file before the position. -/
theorem writeAt_getElem?_of_lt (fill : β) (data : List β) (hp : q < p) (hq : q < file.length) :
    (writeAt fill file data p)[q]? = file[q]? := by
  rw [writeAt]
  split_ifs with hdata
  · rfl
  · have hlen := upTo_length fill file p
    rw [List.append_assoc, List.getElem?_append_left (by omega), upTo,
      List.getElem?_take_of_lt hp, List.getElem?_append_left hq]

/-- What was in the file behind what is written. -/
theorem writeAt_getElem?_of_le (fill : β) (file : List β) (h : p + data.length ≤ q) :
    (writeAt fill file data p)[q]? = file[q]? := by
  rw [writeAt]
  split_ifs with hdata
  · rfl
  · have hlen : (upTo fill file p ++ data).length = p + data.length := by
      rw [List.length_append, upTo_length]
    rw [List.getElem?_append_right (by omega), hlen, List.getElem?_drop,
      Nat.add_sub_cancel' h]

end Nachos.HostFiles
