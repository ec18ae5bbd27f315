import Mathlib.Data.List.Basic
import Mathlib.Order.Nat
import Mathlib.Algebra.Group.Nat.Defs

/-!
# Codecs over streams of big-endian words

A **sink** is a byte buffer that is filled from its start: what has been written, and the room
that is left. A source is the list of the bytes that are still to be read. A `Codec` writes a
value into a sink and reads one from a source; either reports whether it has succeeded, and both
go on from whatever state the failure has left, so that a caller that does not look at the report
gets exactly what the code gets.

`Faithful c bytes` is what a caller may rely on: with enough room the bytes of the value are
appended, and they are read back as the value. `Fixed c n bytes` adds, for values whose encoding
always takes `n` bytes, that anything shorter is reported. Both are kept by sequencing
(`Codec.seq`) and by changing the representation of the value (`Codec.via`).
-/

open List

namespace WordStream

/-- What has been written to a buffer, and the room that is left in it. -/
structure Sink where
  out : List UInt8
  room : ℕ
  deriving DecidableEq

/-- The four bytes of a word, the most significant one first. -/
def wordBytes (w : UInt32) : List UInt8 :=
  [UInt8.ofNat (w.toNat / 2 ^ 24), UInt8.ofNat (w.toNat / 2 ^ 16), UInt8.ofNat (w.toNat / 2 ^ 8),
    UInt8.ofNat w.toNat]

/-- The word of four bytes. -/
def ofBytes (b₃ b₂ b₁ b₀ : UInt8) : UInt32 :=
  UInt32.ofNat (b₃.toNat * 2 ^ 24 + b₂.toNat * 2 ^ 16 + b₁.toNat * 2 ^ 8 + b₀.toNat)

@[simp] theorem length_wordBytes (w : UInt32) : (wordBytes w).length = 4 := rfl

theorem ofBytes_wordBytes (w : UInt32) :
    ofBytes (UInt8.ofNat (w.toNat / 2 ^ 24)) (UInt8.ofNat (w.toNat / 2 ^ 16))
      (UInt8.ofNat (w.toNat / 2 ^ 8)) (UInt8.ofNat w.toNat) = w := by
  apply UInt32.toNat_inj.1
  have hw := w.toNat_lt
  simp only [ofBytes, UInt32.toNat_ofNat', UInt8.toNat_ofNat']
  omega

/-- A way to write values and to read them back. Reading works on a value that is already there, and
may leave it partly read. -/
structure Codec (α : Type) where
  enc : α → Sink → Bool × Sink
  dec : α → List UInt8 → Bool × α × List UInt8

variable {α β : Type}

/-- A codec of words. -/
def Codec.word : Codec UInt32 where
  enc w s := if s.room < 4 then (false, s) else (true, ⟨s.out ++ wordBytes w, s.room - 4⟩)
  dec w l :=
    match l with
    | b₃ :: b₂ :: b₁ :: b₀ :: rest => (true, ofBytes b₃ b₂ b₁ b₀, rest)
    | l => (false, w, l)

/-- One after the other; the second is left out when the first fails. -/
def Codec.seq (c : Codec α) (d : Codec β) : Codec (α × β) where
  enc x s :=
    match c.enc x.1 s with
    | (true, s) => d.enc x.2 s
    | (false, s) => (false, s)
  dec x l :=
    match c.dec x.1 l with
    | (true, a, l) =>
      match d.dec x.2 l with
      | (ok, b, l) => (ok, (a, b), l)
    | (false, a, l) => (false, (a, x.2), l)

/-- The same bytes for another representation of the value. -/
def Codec.via (f : α → β) (g : β → α) (c : Codec β) : Codec α where
  enc a s := c.enc (f a) s
  dec a l :=
    match c.dec (f a) l with
    | (ok, b, l) => (ok, g b, l)

/-- **Faithful codecs.** With enough room the bytes of the value are appended; from these bytes the
value is read back, whatever follows them. -/
structure Faithful (c : Codec α) (bytes : α → List UInt8) : Prop where
  enc_ok : ∀ a s, (bytes a).length ≤ s.room →
    c.enc a s = (true, ⟨s.out ++ bytes a, s.room - (bytes a).length⟩)
  dec_ok : ∀ a b rest, c.dec b (bytes a ++ rest) = (true, a, rest)

/-- **Codecs of a fixed size**, which report a buffer or a source that is too short. -/
structure Fixed (c : Codec α) (n : ℕ) (bytes : α → List UInt8) : Prop extends Faithful c bytes where
  length : ∀ a, (bytes a).length = n
  enc_short : ∀ a s, s.room < n → (c.enc a s).1 = false
  dec_short : ∀ a l, l.length < n → (c.dec a l).1 = false
  dec_long : ∀ a l, n ≤ l.length → ∃ b, c.dec a l = (true, b, l.drop n)

theorem Fixed.word : Fixed Codec.word 4 wordBytes where
  enc_ok w s h := by
    exact if_neg (not_lt.2 h)
  dec_ok w v rest := by
    show (true, ofBytes _ _ _ _, rest) = _
    rw [ofBytes_wordBytes]
  length w := rfl
  enc_short w s h := by
    show (if s.room < 4 then (false, s) else _).1 = false
    rw [if_pos h]
  dec_short w l h := by
    rcases l with _ | ⟨b₃, _ | ⟨b₂, _ | ⟨b₁, _ | ⟨b₀, rest⟩⟩⟩⟩
    · rfl
    · rfl
    · rfl
    · rfl
    · simp only [length_cons] at h
      omega
  dec_long w l h := by
    rcases l with _ | ⟨b₃, _ | ⟨b₂, _ | ⟨b₁, _ | ⟨b₀, rest⟩⟩⟩⟩
    · cases h
    · simp at h
    · simp at h
    · simp at h
    · exact ⟨_, rfl⟩

variable {bytes' bytes : β → List UInt8} {d c : Codec β} {n : ℕ} {f : α → β} {g : β → α}

theorem Faithful.seq {c : Codec α} {bytes : α → List UInt8}
    (h : Faithful c bytes) (h' : Faithful d bytes') :
    Faithful (c.seq d) fun x ↦ bytes x.1 ++ bytes' x.2 where
  enc_ok x s hroom := by
    rw [length_append] at hroom
    rw [Codec.seq]
    simp only [h.enc_ok x.1 s (by omega)]
    rw [h'.enc_ok x.2 _ (by simp only; omega), append_assoc, length_append, Nat.sub_sub]
  dec_ok x y rest := by
    rw [Codec.seq, append_assoc]
    simp only [h.dec_ok, h'.dec_ok]

theorem Fixed.seq {c : Codec α} {m : ℕ} {bytes : α → List UInt8} (h : Fixed c n bytes)
    (h' : Fixed d m bytes') :
    Fixed (c.seq d) (n + m) fun x ↦ bytes x.1 ++ bytes' x.2 where
  toFaithful := h.toFaithful.seq h'.toFaithful
  length x := by rw [length_append, h.length, h'.length]
  enc_short x s hroom := by
    rw [Codec.seq]
    by_cases hn : s.room < n
    · have hfail := h.enc_short x.1 s hn
      cases hc : c.enc x.1 s with
      | mk ok s' => grind
    · -- the first part fits, and the second one does not
      have hok := h.enc_ok x.1 s (by rw [h.length]; omega)
      simp only [hok]
      exact h'.enc_short _ _ (by rw [h.length]; simp only; omega)
  dec_short x l hlen := by
    rw [Codec.seq]
    by_cases hn : l.length < n
    · have hfail := h.dec_short x.1 l hn
      cases hc : c.dec x.1 l with
      | mk ok r => grind
    · obtain ⟨a, ha⟩ := h.dec_long x.1 l (not_lt.1 hn)
      simp only [ha]
      exact h'.dec_short _ _ (by rw [length_drop]; omega)
  dec_long x l hlen := by
    obtain ⟨a, ha⟩ := h.dec_long x.1 l (by omega)
    obtain ⟨b, hb⟩ := h'.dec_long x.2 (l.drop n) (by rw [length_drop]; omega)
    refine ⟨(a, b), ?_⟩
    rw [Codec.seq]
    simp only [ha, hb, drop_drop]

theorem Faithful.via (h : Faithful c bytes) (hg : ∀ a, g (f a) = a) :
    Faithful (c.via f g) fun a ↦ bytes (f a) where
  enc_ok a s hroom := h.enc_ok (f a) s hroom
  dec_ok a b rest := by
    rw [Codec.via]
    simp only [h.dec_ok, hg]

theorem Fixed.via (h : Fixed c n bytes) (hg : ∀ a, g (f a) = a) :
    Fixed (c.via f g) n fun a ↦ bytes (f a) where
  toFaithful := h.toFaithful.via hg
  length a := h.length (f a)
  enc_short a s hroom := h.enc_short (f a) s hroom
  dec_short a l hlen := h.dec_short (f a) l hlen
  dec_long a l hlen := by
    obtain ⟨b, hb⟩ := h.dec_long (f a) l hlen
    refine ⟨g b, ?_⟩
    rw [Codec.via]
    simp only [hb]

end WordStream
