/-
Integers of too many digits. The reader gives up on such an integer where it stands, before it has
seen what follows, so it also does in texts that are not JSON.
-/
import Mathlib.Data.List.TakeDrop
import Mathlib.Data.List.TakeWhile
import PlaceMap.Json.Reader

namespace PlaceMap.Json

namespace Reader

theorem spanDigits_of_digits {ds : List Char} (h : ∀ c ∈ ds, c.isDigit = true) :
    spanDigits ds = (ds, []) := by
  unfold spanDigits
  rw [List.span_eq_takeWhile_dropWhile, List.takeWhile_eq_self_iff.2 h, List.dropWhile_eq_nil_iff.2 h]

/-- A number is refused whose digits, more than an integer may have, go on to the end of the text. -/
theorem number_oversized {d : Char} {ds : List Char} (hd : d ≠ '0' ∧ d ≠ '-')
    (hdigits : ∀ c ∈ d :: ds, c.isDigit = true) (hlong : maxDigits < (d :: ds).length) :
    number (d :: ds) = .error (.tooManyDigits (d :: ds).length, d :: ds) := by
  have hwhole : whole (d :: ds) = some (d :: ds, []) := by
    unfold whole
    split
    · rename_i heq
      cases heq
      exact absurd rfl hd.1
    · rw [spanDigits_of_digits hdigits]
  unfold number
  split
  rename_i hsign
  split at hsign
  · rename_i heq
    cases heq
    exact absurd rfl hd.2
  · cases hsign
    rw [hwhole]
    simp only [fraction, exponent]
    rw [if_pos hlong]

end Reader

open Reader

/-- A nine, and `n` more of them. -/
def nines (n : Nat) : List Char := '9' :: List.replicate n '9'

theorem length_nines (n : Nat) : (nines n).length = n + 1 := by
  rw [nines, List.length_cons, List.length_replicate]

section

variable {n : Nat} (h : maxDigits < n + 1)
include h

theorem number_nines : number (nines n) = .error (.tooManyDigits (n + 1), nines n) := by
  have hdigits : ∀ c ∈ nines n, c.isDigit = true := by
    intro c hc
    rcases List.mem_cons.1 hc with rfl | hc
    · rfl
    · rw [List.eq_of_mem_replicate hc]
      rfl
  have hnumber := number_oversized (by decide) hdigits (length_nines n ▸ h)
  rw [← nines, length_nines] at hnumber
  exact hnumber

theorem value_nines (fuel : Nat) :
    value (fuel + 1) (nines n) = .error (.tooManyDigits (n + 1), nines n) := by
  rw [← number_nines h, nines, value]
  · rfl
  all_goals exact nofun

theorem items_nines (fuel : Nat) :
    items (fuel + 2) [] (nines n) = .error (.tooManyDigits (n + 1), nines n) := by
  rw [items.eq_def]
  exact congrArg (· >>= _) (value_nines h fuel)

/-- The reader does not notice that a bracket is not closed behind an integer of too many digits. -/
theorem read_unclosed_nines :
    ∃ fault, read (String.ofList ('[' :: nines n)) = .error fault ∧
      fault.oversized? = some (n + 1) := by
  have hvalue : value (2 * (n + 2) + 2) ('[' :: nines n) =
      .error (.tooManyDigits (n + 1), nines n) := by
    rw [nines, value]
    exact congrArg (Except.map _) (items_nines h (2 * n + 3))
  have hdocument : document ('[' :: nines n) = .error (.tooManyDigits (n + 1), nines n) := by
    unfold document
    rw [List.length_cons, length_nines]
    exact congrArg (· >>= _) hvalue
  unfold read
  simp only [String.toList_ofList, hdocument]
  exact ⟨_, rfl, rfl⟩

end

end PlaceMap.Json
