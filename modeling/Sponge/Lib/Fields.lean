import Mathlib.Data.List.Basic
import Mathlib.Order.Basic

/-!
# Texts with labelled fields

`render` puts values behind their labels, without any quoting. If no value has a character that a label can
begin with, the text determines the values (`render_eq_iff`). The digits of a number are such values, and
determine it (`toDigits_injective`).
-/

namespace Fields

section
variable {α : Type} {p : α → Bool} {tail : List α} {a b x y : List α}

/-- The label of every field and its value, and then `tail`. -/
def render (tail : List α) : List (List α × List α) → List α
  | [] => tail
  | (label, value) :: fields => label ++ (value ++ render tail fields)

/-- Characters with `p` are for values: none of them begins `l`. -/
def Ends (p : α → Bool) (l : List α) : Prop := ∃ c rest, l = c :: rest ∧ p c = false

theorem append_eq_append_iff_of_ends (ha : ∀ c ∈ a, p c = true) (hb : ∀ c ∈ b, p c = true) (hx : Ends p x)
    (hy : Ends p y) : a ++ x = b ++ y ↔ a = b ∧ x = y := by
  obtain ⟨c, x, rfl, hc⟩ := hx
  obtain ⟨d, y, rfl, hd⟩ := hy
  constructor
  · intro h
    have hab : a = b := by
      have htake := congrArg (List.takeWhile p) h
      rwa [List.takeWhile_append_of_pos ha, List.takeWhile_append_of_pos hb,
        List.takeWhile_cons_of_neg (by simp [hc]), List.takeWhile_cons_of_neg (by simp [hd]), List.append_nil,
        List.append_nil] at htake
    rw [hab] at h
    exact ⟨hab, List.append_cancel_left h⟩
  · rintro ⟨rfl, h⟩
    rw [h]

theorem ends_render (htail : Ends p tail) : ∀ {fields : List (List α × List α)},
    (∀ f ∈ fields, Ends p f.1) → Ends p (render tail fields)
  | [], _ => htail
  | (label, value) :: fields, h => by
    obtain ⟨c, rest, hlabel, hc⟩ := h (label, value) (by simp)
    obtain rfl : label = c :: rest := hlabel
    exact ⟨c, rest ++ (value ++ render tail fields), rfl, hc⟩

theorem render_eq_iff (htail : Ends p tail) {fields fields' : List (List α × List α)}
    (hlabels : fields.map Prod.fst = fields'.map Prod.fst) (hends : ∀ f ∈ fields, Ends p f.1)
    (hvalues : ∀ f ∈ fields, ∀ c ∈ f.2, p c = true) (hvalues' : ∀ f ∈ fields', ∀ c ∈ f.2, p c = true) :
    render tail fields = render tail fields' ↔ fields.map Prod.snd = fields'.map Prod.snd := by
  induction fields generalizing fields' with
  | nil =>
    obtain rfl : fields' = [] := by simpa using hlabels
    simp
  | cons f fields ih =>
    obtain ⟨f', fields', rfl⟩ : ∃ f' rest, fields' = f' :: rest := by
      cases fields' with
      | nil => simp at hlabels
      | cons f' rest => exact ⟨f', rest, rfl⟩
    obtain ⟨hlabel, hlabels⟩ : f.1 = f'.1 ∧ fields.map Prod.fst = fields'.map Prod.fst := by simpa using hlabels
    have hends' : ∀ g ∈ fields', Ends p g.1 := by
      intro g hg
      have hmem : g.1 ∈ fields.map Prod.fst := by rw [hlabels]; exact List.mem_map_of_mem hg
      obtain ⟨k, hk, hkg⟩ := List.mem_map.1 hmem
      rw [← hkg]
      exact hends k (by simp [hk])
    have hrest : ∀ g ∈ fields, Ends p g.1 := fun g hg => hends g (by simp [hg])
    show f.1 ++ (f.2 ++ render tail fields) = f'.1 ++ (f'.2 ++ render tail fields') ↔ _
    rw [hlabel, List.append_cancel_left_eq, append_eq_append_iff_of_ends (hvalues f (by simp)) (hvalues' f' (by simp))
      (ends_render htail hrest) (ends_render htail hends'),
      ih hlabels hrest (fun g hg => hvalues g (by simp [hg])) (fun g hg => hvalues' g (by simp [hg])),
      List.map_cons, List.map_cons, List.cons.injEq]

end

section
variable {b n m : ℕ} (hb : 1 < b) (hb' : b ≤ 16)
include hb hb'

theorem digitChar_inj (hn : n < b) (hm : m < b) (h : Nat.digitChar n = Nat.digitChar m) : n = m := by
  have hinj : ∀ n < 16, ∀ m < 16, Nat.digitChar n = Nat.digitChar m → n = m := by decide
  exact hinj n (by omega) m (by omega) h

theorem toDigits_injective : Function.Injective (Nat.toDigits b) := by
  intro n m h
  -- one digit against more than one
  have hone {k l : ℕ} (hk : k < b) (hl : b ≤ l) : Nat.toDigits b k ≠ Nat.toDigits b l := by
    intro heq
    have hlen := congrArg List.length heq
    rw [Nat.toDigits_of_lt_base hk, Nat.toDigits_of_base_le hb hl] at hlen
    simp at hlen
  induction n using Nat.strongRecOn generalizing m with
  | ind n ih =>
    rcases Nat.lt_or_ge n b with hn | hn
    · rcases Nat.lt_or_ge m b with hm | hm
      · rw [Nat.toDigits_of_lt_base hn, Nat.toDigits_of_lt_base hm] at h
        exact digitChar_inj hb hb' hn hm (List.singleton_inj.1 h)
      · exact absurd h (hone hn hm)
    · rcases Nat.lt_or_ge m b with hm | hm
      · exact absurd h.symm (hone hm hn)
      · rw [Nat.toDigits_of_base_le hb hn, Nat.toDigits_of_base_le hb hm] at h
        obtain ⟨hdiv, hmod⟩ := List.append_inj' h rfl
        have hq := ih (n / b) (Nat.div_lt_self (by omega) hb) hdiv
        have hr := digitChar_inj hb hb' (Nat.mod_lt n (by omega)) (Nat.mod_lt m (by omega)) (List.singleton_inj.1 hmod)
        rw [← Nat.div_add_mod n b, ← Nat.div_add_mod m b, hq, hr]

omit hb' in
theorem forall_mem_toDigits {p : Char → Bool} (hp : ∀ d < b, p (Nat.digitChar d) = true) (n : ℕ) :
    ∀ c ∈ Nat.toDigits b n, p c = true := by
  induction n using Nat.strongRecOn with
  | ind n ih =>
    rw [Nat.toDigits_eq_if hb]
    split
    · rename_i hn
      exact List.forall_mem_singleton.2 (hp n hn)
    · exact List.forall_mem_append.2
        ⟨ih (n / b) (Nat.div_lt_self (by omega) hb), List.forall_mem_singleton.2 (hp _ (Nat.mod_lt n (by omega)))⟩

end

end Fields
