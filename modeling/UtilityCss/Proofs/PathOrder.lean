import UtilityCss.Proofs.PathSteps
import Mathlib.Data.List.Lex
import Mathlib.Data.List.Sort

/-!
# The order of paths

Paths are ordered step by step, and names byte by byte (`Path.Before`). Directories keep their
members in the order of the characters of their names. For names in UTF-8 the two orders are one
(`bytes_lt_of_lt`): the first byte of a longer sequence is greater than that of a shorter one, and
among sequences of one length the leading bits come first.
-/

namespace UtilityCss

/-! ### Bytes and characters -/

/-- The bytes of a text. -/
def bytes (text : String) : List UInt8 := text.toUTF8.data.toList

/-- The bytes of a text are those of its characters. -/
theorem bytes_eq_flatMap (text : String) :
    bytes text = text.toList.flatMap String.utf8EncodeChar := by
  have htext : text.toUTF8 = text.toList.utf8Encode := by
    rw [← String.toByteArray_ofList, String.ofList_toList]
    rfl
  rw [bytes, htext, List.utf8Encode, List.toList_data_toByteArray]

theorem toNat_ofNat_of_lt_256 {n : Nat} (h : n < 256) : (UInt8.ofNat n).toNat = n :=
  UInt8.toNat_ofNat_of_lt' h

/-- A smaller character has smaller bytes, whatever stands behind them. -/
theorem utf8EncodeChar_append_lt {c d : Char} (h : c < d) (rest rest' : List UInt8) :
    String.utf8EncodeChar c ++ rest < String.utf8EncodeChar d ++ rest' := by
  have hval : c.val.toNat < d.val.toNat := h
  have hmax : d.val.toNat < 0x110000 := by
    have := d.valid
    rcases this with hsmall | ⟨-, hlarge⟩
    · exact Nat.lt_trans hsmall (by decide)
    · exact hlarge
  unfold String.utf8EncodeChar
  generalize c.val.toNat = v at hval ⊢
  generalize d.val.toNat = w at hval hmax ⊢
  -- A byte takes the next six bits, and the number without them is the rest of the comparison.
  have hbits : ∀ n m : Nat, n < m → n / 64 < m / 64 ∨ n / 64 = m / 64 ∧ n % 64 < m % 64 := by
    omega
  have hlow := hbits v w hval
  have hmiddle := hbits (v / 64) (w / 64)
  have hhigh := hbits (v / 4096) (w / 4096)
  rw [Nat.div_div_eq_div_mul, Nat.div_div_eq_div_mul] at hmiddle hhigh
  have htop : w / 262144 % 8 = w / 262144 := by omega
  have htop' : v / 262144 % 8 = v / 262144 := by omega
  dsimp only
  -- Four lengths on either side: the first byte decides between them, and inside a length all do.
  split_ifs <;>
    simp (disch := omega) only [List.cons_append, List.nil_append, List.cons_lt_cons_iff,
      UInt8.lt_iff_toNat_lt, ← UInt8.toNat_inj, toNat_ofNat_of_lt_256] <;>
    omega

/-- **The order of names is the order of their bytes**, since it is so for single characters. -/
theorem bytes_lt_of_lt {name name' : String} (h : name < name') : bytes name < bytes name' := by
  rw [String.lt_iff] at h
  rw [bytes_eq_flatMap, bytes_eq_flatMap]
  generalize name.toList = text at h ⊢
  generalize name'.toList = text' at h ⊢
  induction h with
  -- One name ends where the other goes on.
  | nil =>
    rename_i d rest
    rw [List.flatMap_nil, List.flatMap_cons]
    obtain ⟨b, bs, hbs⟩ := List.exists_cons_of_ne_nil
      (show String.utf8EncodeChar d ≠ [] from String.utf8EncodeChar_ne_nil)
    rw [hbs]
    exact .nil
  -- The first characters differ, and then their bytes decide.
  | rel h =>
    rw [List.flatMap_cons, List.flatMap_cons]
    exact utf8EncodeChar_append_lt h _ _
  | cons h ih =>
    rw [List.flatMap_cons, List.flatMap_cons]
    exact List.Lex.append_left _ ih _

namespace Path

/-! ### Steps and paths -/

/-- The place of a kind of step in the order. -/
def Step.rank : Step → Nat
  | root => 0
  | here => 1
  | up => 2
  | down _ => 3

/-- The bytes of the name of a step. -/
def Step.bytes : Step → List UInt8
  | down name => UtilityCss.bytes name
  | _ => []

/-- **One step comes before another**: by its kind, and names by their bytes. -/
def Step.Before (a b : Step) : Prop := a.rank < b.rank ∨ a.rank = b.rank ∧ a.bytes < b.bytes

/-- **One path comes before another**, step by step. -/
def Before (p q : Path) : Prop := List.Lex Step.Before p.steps q.steps

/-- No step comes before itself. -/
theorem Step.before_irrefl (a : Step) : ¬ a.Before a := by
  rintro (h | ⟨-, h⟩)
  · exact Nat.lt_irrefl _ h
  · exact List.lex_irrefl UInt8.lt_irrefl _ h

/-- The order of steps is transitive. -/
theorem Step.Before.trans {a b c : Step} (h : a.Before b) (h' : b.Before c) : a.Before c := by
  rcases h with h | ⟨hrank, h⟩
  · rcases h' with h' | ⟨hrank', -⟩
    · exact .inl (Nat.lt_trans h h')
    · exact .inl (hrank' ▸ h)
  · -- Steps of one kind are compared by their bytes only if the third is of this kind too.
    rcases h' with h' | ⟨hrank', h'⟩
    · exact .inl (hrank ▸ h')
    · exact .inr ⟨hrank.trans hrank', List.lex_trans UInt8.lt_trans h h'⟩

theorem before_irrefl (p : Path) : ¬ p.Before p := List.lex_irrefl Step.before_irrefl _

theorem Before.trans {p q r : Path} (h : p.Before q) (h' : q.Before r) : p.Before r :=
  List.lex_trans Step.Before.trans h h'

/-- **A sorted list is known by its members.** -/
theorem eq_of_pairwise_before {paths paths' : List Path} (h : paths.Pairwise Before)
    (h' : paths'.Pairwise Before) (hmem : ∀ p, p ∈ paths ↔ p ∈ paths') : paths = paths' := by
  have : Std.Irrefl Before := ⟨before_irrefl⟩
  have : Std.Antisymm Before :=
    ⟨fun p _ hlt hgt => absurd (Before.trans hlt hgt) (before_irrefl p)⟩
  exact h.eq_of_mem_iff h' hmem

/-- Steps down are in the order of their names. -/
theorem Step.before_down {name name' : String} (h : name < name') :
    Step.Before (.down name) (.down name') := .inr ⟨rfl, bytes_lt_of_lt h⟩

/-- Paths that go down from one place are in the order of the names on them. -/
theorem before_below {p : Path} (hp : p.text ≠ "") {names names' : List String}
    (hnames : ∀ name ∈ names, IsFileName name) (hnames' : ∀ name ∈ names', IsFileName name)
    (h : List.Lex (· < ·) names names') : (p.below names).Before (p.below names') := by
  rw [Before, steps_below hp hnames, steps_below hp hnames']
  apply List.Lex.append_left
  clear hnames hnames'
  induction h with
  | nil => exact .nil
  | rel h => exact .rel (Step.before_down h)
  | cons _ ih => exact .cons ih

end Path

end UtilityCss
