/-!
Blank characters, and cutting them off both ends of a text. Cutting twice is
cutting once, so a trimmed text is its own trimmed form.
-/
namespace TapeMachine.Text

/-- The code points with Unicode's White_Space property. -/
def isBlank (c : Char) : Bool :=
  let n := c.toNat
  (0x9 ≤ n && n ≤ 0xD) || n == 0x20 || n == 0x85 || n == 0xA0 || n == 0x1680 ||
    (0x2000 ≤ n && n ≤ 0x200A) || n == 0x2028 || n == 0x2029 || n == 0x202F ||
    n == 0x205F || n == 0x3000

/-- Drops what satisfies `p` from both ends of a list and keeps the middle whole. -/
def dropEnds (p : α → Bool) (xs : List α) : List α :=
  ((xs.dropWhile p).reverse.dropWhile p).reverse

@[simp] theorem dropEnds_nil (p : α → Bool) : dropEnds p [] = [] := rfl

/-- What is left begins with a member that fails `p`. -/
theorem head?_dropWhile (p : α → Bool) (xs : List α) :
    ∀ y, (xs.dropWhile p).head? = some y → p y = false := by
  intro y hy
  have hnot := List.head?_dropWhile_not p xs
  rw [hy] at hnot
  exact hnot

theorem dropWhile_of_head? {p : α → Bool} {ys : List α}
    (h : ∀ y, ys.head? = some y → p y = false) : ys.dropWhile p = ys := by
  cases ys with
  | nil => rfl
  | cons y ys => simp [h y rfl]

theorem head?_of_dropWhile {p : α → Bool} {ys : List α} (h : ys.dropWhile p = ys) :
    ∀ y, ys.head? = some y → p y = false := by
  rw [← h]
  exact head?_dropWhile p ys

/-- A list whose first member fails `p` keeps that member when `p` is dropped from the back. -/
theorem dropWhile_dropEnds (p : α → Bool) (xs : List α) :
    (dropEnds p xs).dropWhile p = dropEnds p xs := by
  unfold dropEnds
  cases hd : xs.dropWhile p with
  | nil => rfl
  | cons y ys =>
    have hy : p y = false := head?_dropWhile p xs y (by rw [hd, List.head?_cons])
    have hback : ∀ zs : List α,
        ((zs ++ [y]).dropWhile p).reverse.dropWhile p = ((zs ++ [y]).dropWhile p).reverse := by
      intro zs
      induction zs with
      | nil => simp [hy]
      | cons z zs ih =>
        by_cases hz : p z
        · simpa [List.dropWhile_cons, hz] using ih
        · simp [hz, hy]
    simpa using hback ys.reverse

theorem reverse_dropEnds (p : α → Bool) (xs : List α) :
    (dropEnds p xs).reverse.dropWhile p = (dropEnds p xs).reverse := by
  rw [dropEnds, List.reverse_reverse]
  exact dropWhile_of_head? (head?_dropWhile p _)

theorem dropEnds_dropEnds (p : α → Bool) (xs : List α) :
    dropEnds p (dropEnds p xs) = dropEnds p xs := by
  rw [dropEnds, dropWhile_dropEnds, reverse_dropEnds, List.reverse_reverse]

/-- The text without the blanks at its two ends. -/
def trim (s : String) : String :=
  String.ofList (dropEnds isBlank s.toList)

theorem trim_trim (s : String) : trim (trim s) = trim s := by
  simp [trim, dropEnds_dropEnds]

end TapeMachine.Text
