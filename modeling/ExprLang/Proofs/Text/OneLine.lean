import ExprLang.Text.Quoted

/-!
# Texts on one line

A text without a newline is on one line (`OneLine`).  Put one behind the other, such texts are still
on one line.  The decimal digits of a number are on one line, and so is an escaped text, whatever
the text is.  Both have only characters from the blank to the tilde (`isPrintable`).
-/

namespace ExprLang.Text

/-! ## Printable characters -/

/-- A character of ASCII that is no control character. -/
def isPrintable (c : Char) : Bool := 0x20 ≤ c.toNat && c.toNat < 0x7F

theorem isPrintable_digitChar (n : Nat) : isPrintable n.digitChar := by
  by_cases hn : n < 16
  · have hdigit : ∀ n < 16, isPrintable (Nat.digitChar n) := by decide
    exact hdigit n hn
  · rw [Nat.digitChar_eq_star.2 (Nat.not_lt.1 hn)]
    rfl

theorem isPrintable_of_mem_toDigits {base : Nat} (hbase : 1 < base) (n : Nat) :
    ∀ c ∈ Nat.toDigits base n, isPrintable c := by
  induction n using Nat.strongRecOn with
  | ind n ih =>
    intro c hc
    rw [Nat.toDigits_eq_if hbase] at hc
    split at hc
    · obtain rfl := List.mem_singleton.1 hc
      exact isPrintable_digitChar n
    · next hge =>
      have hpos : 0 < n := by omega
      rcases List.mem_append.1 hc with hc | hc
      · exact ih (n / base) (Nat.div_lt_self hpos hbase) c hc
      · obtain rfl := List.mem_singleton.1 hc
        exact isPrintable_digitChar (n % base)

theorem all_isPrintable_codePoint (c : Char) : (codePoint c).all isPrintable := by
  rw [codePoint, List.all_append, List.all_append, Bool.and_eq_true, Bool.and_eq_true]
  refine ⟨⟨rfl, ?_⟩, rfl⟩
  exact List.all_eq_true.2 (isPrintable_of_mem_toDigits (by decide) c.toNat)

theorem all_isPrintable_escapedChar (c : Char) : (escapedChar c).all isPrintable := by
  unfold escapedChar
  split
  case h_7 =>
    split
    · next h => simpa [isPrintable] using h
    · exact all_isPrintable_codePoint c
  all_goals rfl

/-- An escaped text is printable. -/
theorem isPrintable_of_mem_escape {s : String} {c : Char} (hc : c ∈ (escape s).toList) :
    isPrintable c := by
  rw [toList_escape] at hc
  obtain ⟨d, -, hd⟩ := List.mem_flatMap.1 hc
  exact List.all_eq_true.1 (all_isPrintable_escapedChar d) c hd

/-! ## One line -/

/-- A text without a newline. -/
def OneLine (s : String) : Prop := '\n' ∉ s.toList

instance (s : String) : Decidable (OneLine s) := inferInstanceAs (Decidable (¬ _))

@[simp] theorem oneLine_append {s t : String} : OneLine (s ++ t) ↔ OneLine s ∧ OneLine t := by
  simp [OneLine, not_or]

theorem oneLine_of_forall {p : Char → Bool} {s : String} (hp : p '\n' = false)
    (h : ∀ c ∈ s.toList, p c) : OneLine s := by
  intro hmem
  rw [h _ hmem] at hp
  cases hp

@[simp] theorem oneLine_escape (s : String) : OneLine (escape s) :=
  oneLine_of_forall rfl fun _ => isPrintable_of_mem_escape

@[simp] theorem oneLine_repr (n : Nat) : OneLine n.repr := by
  refine oneLine_of_forall (p := isPrintable) rfl fun c hc => ?_
  rw [Nat.toList_repr] at hc
  exact isPrintable_of_mem_toDigits (by decide) n c hc

end ExprLang.Text
