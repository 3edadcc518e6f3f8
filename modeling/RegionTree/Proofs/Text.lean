import Mathlib.Algebra.Ring.Nat
import RegionTree.Address
import RegionTree.Flags.Page
import RegionTree.Flags.Region
import RegionTree.Text.Lines

/-! Newlines: they divide a text into its lines, and the texts of numbers and of sets of flags have none. -/
namespace RegionTree

namespace Lines

def breaks (text : String) : Nat := text.toList.count '\n'

@[simp] theorem breaks_append (text more : String) : breaks (text ++ more) = breaks text + breaks more := by
  rw [breaks, String.toList_append, List.count_append]
  rfl

theorem breaks_ofList (cs : List Char) : breaks (String.ofList cs) = cs.count '\n' := by
  rw [breaks, String.toList_ofList]

theorem breaks_eq_zero_iff {text : String} : breaks text = 0 ↔ '\n' ∉ text.toList := List.count_eq_zero

theorem split_newline (back rest : List Char) : split back ('\n' :: rest) = ended back :: split [] rest := by
  rw [split]

theorem split_cons {c : Char} (other : c ≠ '\n') (back rest : List Char) :
    split back (c :: rest) = split (c :: back) rest := by
  rw [split]
  exact other

theorem split_append (back cs rest : List Char) :
    split back (cs ++ '\n' :: rest) = split back (cs ++ ['\n']) ++ split [] rest := by
  induction cs generalizing back with
  | nil =>
      rw [List.nil_append, List.nil_append, split_newline, split_newline]
      rfl
  | cons c cs ih =>
      rw [List.cons_append, List.cons_append]
      by_cases newline : c = '\n'
      · rw [newline, split_newline, split_newline, ih, List.cons_append]
      · rw [split_cons newline, split_cons newline, ih]

theorem length_split (back cs : List Char) : (split back (cs ++ ['\n'])).length = cs.count '\n' + 1 := by
  induction cs generalizing back with
  | nil => rfl
  | cons c cs ih =>
      rw [List.cons_append]
      by_cases newline : c = '\n'
      · rw [newline, split_newline, List.length_cons, ih, List.count_cons_self]
      · rw [split_cons newline, ih, List.count_cons_of_ne newline]

theorem split_of_notMem {cs : List Char} (back : List Char) (plain : '\n' ∉ cs) :
    split back (cs ++ ['\n']) = [ended (cs.reverse ++ back)] := by
  induction cs generalizing back with
  | nil => rfl
  | cons c cs ih =>
      rw [List.mem_cons, not_or] at plain
      rw [List.cons_append, split_cons (Ne.symm plain.1), ih (c :: back) plain.2, List.reverse_cons,
        List.append_assoc]
      rfl

def ending (rows : List String) : String := String.join (rows.map (· ++ "\n"))

theorem ending_cons (row : String) (rows : List String) :
    ending (row :: rows) = row ++ "\n" ++ ending rows := by
  rw [ending, List.map_cons, String.join_cons, ending]

theorem ofString_ending_cons (row : String) (rows : List String) :
    ofString (ending (row :: rows)) = ofString (row ++ "\n") ++ ofString (ending rows) := by
  have first : (row ++ "\n").toList = row.toList ++ ['\n'] := String.toList_append
  rw [ending_cons, ofString, String.toList_append, first, List.append_assoc, List.singleton_append,
    split_append, List.map_append, ← first, ofString, ofString]

theorem length_ofString_ending (rows : List String) :
    (ofString (ending rows)).length = rows.length + (rows.map breaks).sum := by
  induction rows with
  | nil => rfl
  | cons row rows ih =>
      have first : (ofString (row ++ "\n")).length = breaks row + 1 := by
        rw [ofString, List.length_map, String.toList_append]
        exact length_split [] row.toList
      rw [ofString_ending_cons, List.length_append, first, ih, List.map_cons, List.sum_cons,
        List.length_cons]
      omega

/-- A row is one line if it has no newline. A carriage return at its end would be lost. -/
theorem ofString_row {row : String} {before : List Char} {c : Char} (last : row.toList = before ++ [c])
    (kept : c ≠ '\r') (plain : breaks row = 0) : ofString (row ++ "\n") = [row] := by
  have parts : split [] (row.toList ++ ['\n']) = [ended (row.toList.reverse ++ [])] :=
    split_of_notMem [] (breaks_eq_zero_iff.mp plain)
  have whole : ended (row.toList.reverse ++ []) = row.toList := by
    rw [last, List.append_nil, List.reverse_append, List.reverse_singleton, List.singleton_append, ended]
    · simp
    · intro back same
      exact kept (List.cons.inj same).1
  rw [ofString, String.toList_append]
  rw [show "\n".toList = ['\n'] from rfl, parts, whole, List.map_singleton, String.ofList_toList]

theorem ofString_ending_iff {rows : List String}
    (ends : ∀ row ∈ rows, ∃ before c, row.toList = before ++ [c] ∧ c ≠ '\r') :
    ofString (ending rows) = rows ↔ ∀ row ∈ rows, breaks row = 0 := by
  constructor
  · intro same
    have count := length_ofString_ending rows
    rw [same] at count
    have none : (rows.map breaks).sum = 0 := by omega
    exact fun row hrow => List.sum_eq_zero_iff_forall_eq_nat.mp none _ (List.mem_map_of_mem hrow)
  · intro plain
    induction rows with
    | nil => rfl
    | cons row rows ih =>
        obtain ⟨⟨before, c, last, kept⟩, others⟩ := List.forall_mem_cons.mp ends
        obtain ⟨first, later⟩ := List.forall_mem_cons.mp plain
        rw [ofString_ending_cons, ofString_row last kept first, ih others later]
        rfl

end Lines

namespace Hex
open Lines

theorem newline_notMem_toDigits (n : Nat) : '\n' ∉ Nat.toDigits 16 n := by
  have digit : ∀ d, '\n' ∉ [Nat.digitChar d] := fun d member =>
    Nat.digitChar_ne '\n' (by decide) (List.mem_singleton.mp member).symm
  induction n using Nat.strongRecOn with
  | ind n ih =>
      rw [Nat.toDigits_eq_if (by decide)]
      split
      · exact digit n
      · exact List.not_mem_append (ih (n / 16) (by omega)) (digit _)

theorem breaks_digits (n : Nat) : breaks (digits n) = 0 := by
  rw [digits, breaks_ofList]
  exact List.count_eq_zero.mpr (newline_notMem_toDigits n)

@[simp] theorem breaks_short (n : Nat) : breaks (short n) = 0 := by
  rw [short, breaks_append, breaks_digits]
  rfl

@[simp] theorem breaks_padded (width n : Nat) : breaks (padded width n) = 0 := by
  rw [padded, breaks_ofList, List.count_append, List.count_eq_zero.mpr (newline_notMem_toDigits n),
    List.count_replicate]
  rfl

end Hex

@[simp] theorem Address.breaks_display (a : Nat) : Lines.breaks (display a) = 0 := by
  rw [display, Lines.breaks_append, Hex.breaks_padded]
  rfl

namespace Lines

theorem breaks_intercalate {separator : String} {texts : List String} (apart : breaks separator = 0)
    (plain : ∀ text ∈ texts, breaks text = 0) : breaks (separator.intercalate texts) = 0 := by
  induction texts with
  | nil => rfl
  | cons text texts ih =>
      obtain ⟨first, others⟩ := List.forall_mem_cons.mp plain
      cases texts with
      | nil => simpa using first
      | cons next rest =>
          rw [String.intercalate_cons_cons, breaks_append, breaks_append, first, apart, ih others]

end Lines

namespace Flags
open Lines
variable {v : Vocabulary}

theorem mem_cover {name : String} {a : BitVec v.width} {named : List (String × BitVec v.width)}
    (left : BitVec v.width) (listed : name ∈ (cover a left named).1) : name ∈ named.map Prod.fst := by
  induction named generalizing left with
  | nil => cases listed
  | cons entry named ih =>
      obtain ⟨first, bits⟩ := entry
      rw [cover] at listed
      split at listed
      · rcases List.mem_cons.mp listed with rfl | later
        · exact List.mem_cons_self
        · exact List.mem_cons_of_mem _ (ih _ later)
      · exact List.mem_cons_of_mem _ (ih _ listed)

theorem breaks_display {a : Flags v} (plain : ∀ name ∈ v.named.map Prod.fst, breaks name = 0) :
    breaks a.display = 0 := by
  simp only [display]
  refine breaks_intercalate rfl fun text member => ?_
  rcases List.mem_append.mp member with listed | rest
  · exact plain text (mem_cover _ listed)
  · split at rest
    · cases rest
    · rw [List.mem_singleton.mp rest, Hex.breaks_short]

end Flags

@[simp] theorem RegionFlags.breaks_display (a : RegionFlags) : Lines.breaks a.display = 0 :=
  Flags.breaks_display (by decide)

@[simp] theorem PageFlags.breaks_display (a : PageFlags) : Lines.breaks a.display = 0 :=
  Flags.breaks_display (by decide)

end RegionTree
