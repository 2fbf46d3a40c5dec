/-!
# Temporaries

Intermediate results are held in temporaries, which are named `t0`, `t1` and so
on. The names are given out by a counter, which is a 64-bit word. Behind the
largest word it starts again from zero, so that the name after
`t18446744073709551615` is `t0`. (Where sums are checked, the program stops there
instead.) The words come back only after 2⁶⁴ names, which is more than one
compilation can use: each has an instruction that fills it, and the addresses run
out before.
-/

set_option autoImplicit false

namespace ThreeAddress

/-- The counter of temporaries: the index of the next one. It counts on without
end, and what is seen of an index is its `word`. -/
structure Temporaries where
  next : Nat
deriving DecidableEq, Repr, Inhabited

namespace Temporaries

/-- The word in which an index is held. -/
def word (index : Nat) : UInt64 := .ofNat index

/-- The name of the temporary with an index. -/
def name (index : Nat) : String := "t" ++ toString (word index)

/-- The next name, and the counter after it. -/
def fresh (temps : Temporaries) : String × Temporaries :=
  (name temps.next, ⟨temps.next + 1⟩)

/-- The word of the next index is the sum that wraps. -/
theorem word_succ (index : Nat) : word (index + 1) = word index + 1 :=
  UInt64.ofNat_add index 1

/-- **A name is made from the word of the counter, and then the word is counted up.** So
what is seen of the counter is that of a counter of words. -/
theorem fresh_word (temps : Temporaries) :
    temps.fresh.1 = "t" ++ toString (word temps.next) ∧
      word temps.fresh.2.next = word temps.next + 1 :=
  ⟨rfl, word_succ temps.next⟩

/-- Behind the largest word the names start again. -/
example : name (18446744073709551615 + 1) = "t0" := by decide +kernel

/-- The word of an index is the rest that 64 bits hold. -/
theorem toNat_word (index : Nat) : (word index).toNat = index % UInt64.size :=
  UInt64.toNat_ofNat'

/-- Indices that are less than 2⁶⁴ apart have different words. -/
theorem word_inj {j k : Nat} (hjk : j < k + UInt64.size) (hkj : k < j + UInt64.size)
    (h : word j = word k) : j = k := by
  have hrest : j % UInt64.size = k % UInt64.size := by
    rw [← toNat_word, ← toNat_word, h]
  simp only [UInt64.size] at hrest hjk hkj
  omega

end Temporaries

end ThreeAddress
