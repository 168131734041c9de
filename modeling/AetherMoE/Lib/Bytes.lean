import Mathlib.Data.List.Induction
import Mathlib.Tactic.Ring

/-!
# Fixed-width byte codecs and byte readers

* `leBytes`, `ofLE`: the `k` low-order base-256 digits of a number, least significant first, and
  the number they spell; **`ofLE_leBytes`** recovers a number below `256 ^ k`.
* `ofBE`: the most-significant-first fold, **`ofBE_reverse`** relates it to `ofLE`.
* `Reader`: a computation that consumes a prefix of a byte list or raises an error.
  `ReadsAs put get a b` says that `get` reads what `put` wrote for `a` as `b`, in front of any
  suffix, and **`readMany_run`** carries this through counted repetition.
* `RaisesOnly`, `ReadsOnly`: the converse, where the error may depend on the string; `Recognizes`: a
  reader whose language is what `put` writes, and **`Recognizes.unique`**,
  **`Recognizes.run_of_cut`**: such a language is prefix-free;
  **`Recognizes.selfDelimiting`**: what this makes of a decoder.
-/

namespace ByteCodec

/-- A byte string. -/
abbrev Bytes := List UInt8

/-! ## Base-256 digits -/

/-- The `k` low-order bytes of `n`, least significant first. -/
def leBytes : ℕ → ℕ → Bytes
  | 0, _ => []
  | k + 1, n => UInt8.ofNat n :: leBytes k (n / 256)

/-- The number spelled by a byte string, least significant byte first. -/
def ofLE : Bytes → ℕ
  | [] => 0
  | b :: bs => b.toNat + 256 * ofLE bs

/-- The number spelled by a byte string, most significant byte first. -/
def ofBE (bs : Bytes) : ℕ := bs.foldl (fun v b => v * 256 + b.toNat) 0

@[simp] theorem length_leBytes (k n : ℕ) : (leBytes k n).length = k := by
  induction k generalizing n with
  | zero => rfl
  | succ k ih => rw [leBytes, List.length_cons, ih]

/-- **Fixed-width digits determine the number.** -/
theorem ofLE_leBytes {k n : ℕ} (h : n < 256 ^ k) : ofLE (leBytes k n) = n := by
  induction k generalizing n with
  | zero =>
    rw [pow_zero] at h
    rw [leBytes, ofLE]
    omega
  | succ k ih =>
    have hd : n / 256 < 256 ^ k := by
      rw [pow_succ] at h
      exact Nat.div_lt_of_lt_mul (by rw [Nat.mul_comm]; exact h)
    rw [leBytes, ofLE, ih hd, UInt8.toNat_ofNat']
    omega

theorem ofLE_lt (bs : Bytes) : ofLE bs < 256 ^ bs.length := by
  induction bs with
  | nil => exact Nat.one_pos
  | cons b bs ih =>
    have hb := b.toNat_lt
    rw [ofLE, List.length_cons, pow_succ]
    omega

/-- **A byte string is determined by its length and the number it spells.** -/
theorem leBytes_ofLE (bs : Bytes) : leBytes bs.length (ofLE bs) = bs := by
  induction bs with
  | nil => rfl
  | cons b bs ih =>
    have hb := b.toNat_lt
    have hlow : UInt8.ofNat (b.toNat + 256 * ofLE bs) = b := by
      apply UInt8.toNat_inj.1
      rw [UInt8.toNat_ofNat']
      omega
    have hhigh : (b.toNat + 256 * ofLE bs) / 256 = ofLE bs := by omega
    rw [ofLE, List.length_cons, leBytes, hlow, hhigh, ih]

theorem ofBE_append_singleton (bs : Bytes) (b : UInt8) :
    ofBE (bs ++ [b]) = ofBE bs * 256 + b.toNat := by
  rw [ofBE, List.foldl_append]
  rfl

theorem ofBE_lt (bs : Bytes) : ofBE bs < 256 ^ bs.length := by
  induction bs using List.reverseRecOn with
  | nil => exact Nat.one_pos
  | append_singleton bs b ih =>
    have hb := b.toNat_lt
    rw [ofBE_append_singleton, List.length_append, List.length_singleton, pow_succ]
    omega

theorem ofBE_reverse (bs : Bytes) : ofBE bs.reverse = ofLE bs := by
  induction bs with
  | nil => rfl
  | cons b bs ih =>
    rw [List.reverse_cons, ofBE_append_singleton, ih, ofLE]
    ring

/-! ## Readers -/

/-- A computation that consumes bytes from the front of a string or raises `ε`. -/
abbrev Reader (ε α : Type) := StateT Bytes (Except ε) α

variable {ε α β : Type}

/-- Running a sequence whose first reader succeeds. -/
theorem run_bind_ok {get : Reader ε α} {bs rest : Bytes} {a : α} (h : get.run bs = .ok (a, rest))
    (f : α → Reader ε β) : (get >>= f).run bs = (f a).run rest := by
  rw [StateT.run_bind, h]
  rfl

/-- A loop of appending writers appends what each of them writes to an empty buffer. -/
theorem foldl_put {put : Bytes → α → Bytes} (h : ∀ buf a, put buf a = buf ++ put [] a)
    (buf : Bytes) (as : List α) : as.foldl put buf = buf ++ as.flatMap (put []) := by
  induction as generalizing buf with
  | nil => simp
  | cons a as ih => rw [List.foldl_cons, ih, h buf a, List.flatMap_cons, List.append_assoc]

/-- What `put` wrote for `a` is read by `get` as `b`, and what follows is left untouched. -/
def ReadsAs (put : α → Bytes) (get : Reader ε β) (a : α) (b : β) : Prop :=
  ∀ rest, get.run (put a ++ rest) = .ok (b, rest)

/-- Run a reader `n` times and collect the results. -/
def readMany (get : Reader ε α) : ℕ → Reader ε (List α)
  | 0 => pure []
  | n + 1 => do
    let a ← get
    let as ← readMany get n
    pure (a :: as)

/-- **Counted repetition** reads back a list of written elements, one by one. -/
theorem readMany_run {put : α → Bytes} {get : Reader ε β} {g : α → β} (as : List α)
    (h : ∀ a ∈ as, ReadsAs put get a (g a)) (rest : Bytes) :
    (readMany get as.length).run (as.flatMap put ++ rest) = .ok (as.map g, rest) := by
  induction as with
  | nil => rfl
  | cons a as ih =>
    have ha := h a List.mem_cons_self (as.flatMap put ++ rest)
    have has := ih fun b hb => h b (List.mem_cons_of_mem _ hb)
    rw [List.flatMap_cons, List.append_assoc, List.length_cons, readMany, run_bind_ok ha,
      run_bind_ok has]
    rfl

/-! ## Which strings a reader accepts -/

/-- A sequence succeeds when both readers do, one on what the other leaves. -/
theorem run_bind_eq_ok {get : Reader ε α} {f : α → Reader ε β} {bs rest : Bytes} {b : β} :
    (get >>= f).run bs = .ok (b, rest) ↔
      ∃ a mid, get.run bs = .ok (a, mid) ∧ (f a).run mid = .ok (b, rest) := by
  rw [StateT.run_bind]
  constructor
  · intro h
    cases hget : get.run bs with
    | error e =>
      rw [hget] at h
      cases h
    | ok p =>
      rw [hget] at h
      exact ⟨p.1, p.2, rfl, h⟩
  · rintro ⟨a, mid, hget, h⟩
    rw [hget]
    exact h

/-- On a string `bs`, `e bs` is the only error that `get` raises. -/
def RaisesOnly (e : Bytes → ε) (get : Reader ε α) : Prop :=
  ∀ bs e', get.run bs = .error e' → e' = e bs

theorem raisesOnly_pure (e : Bytes → ε) (a : α) : RaisesOnly e (pure a : Reader ε α) :=
  fun _ _ h => nomatch h

theorem RaisesOnly.bind {e : ε} {get : Reader ε α} {f : α → Reader ε β}
    (h : RaisesOnly (fun _ => e) get) (hf : ∀ a, RaisesOnly (fun _ => e) (f a)) :
    RaisesOnly (fun _ => e) (get >>= f) := by
  intro bs e' herr
  rw [StateT.run_bind] at herr
  cases hget : get.run bs with
  | error e'' =>
    rw [hget] at herr
    obtain rfl : e'' = e' := Except.error.inj herr
    exact h bs e'' hget
  | ok p =>
    rw [hget] at herr
    exact hf p.1 p.2 e' herr

theorem RaisesOnly.readMany {e : ε} {get : Reader ε α} (h : RaisesOnly (fun _ => e) get) (n : ℕ) :
    RaisesOnly (fun _ => e) (readMany get n) := by
  induction n with
  | zero => exact raisesOnly_pure _ []
  | succ n ih => exact h.bind fun a => ih.bind fun as => raisesOnly_pure _ (a :: as)

/-- What `get` accepts begins with what `put` writes for the element read, and that is a fitting
one. -/
def ReadsOnly (put : α → Bytes) (fits : α → Prop) (get : Reader ε α) : Prop :=
  ∀ bs a rest, get.run bs = .ok (a, rest) → fits a ∧ bs = put a ++ rest

/-- **Counted repetition** accepts what begins with a list of written elements. -/
theorem ReadsOnly.readMany {put : α → Bytes} {fits : α → Prop} {get : Reader ε α}
    (h : ReadsOnly put fits get) (n : ℕ) :
    ReadsOnly (fun as => as.flatMap put) (fun as => as.length = n ∧ ∀ a ∈ as, fits a)
      (readMany get n) := by
  induction n with
  | zero =>
    rintro bs as rest ⟨⟩
    exact ⟨⟨rfl, List.forall_mem_nil _⟩, rfl⟩
  | succ n ih =>
    intro bs as rest hrun
    obtain ⟨a, mid, ha, hrun⟩ := run_bind_eq_ok.1 hrun
    obtain ⟨tail, mid', htail, ⟨⟩⟩ := run_bind_eq_ok.1 hrun
    obtain ⟨hfits, rfl⟩ := h bs a mid ha
    obtain ⟨⟨hlen, hall⟩, rfl⟩ := ih mid tail rest htail
    refine ⟨⟨congrArg Nat.succ hlen, List.forall_mem_cons.2 ⟨hfits, hall⟩⟩, ?_⟩
    beta_reduce
    rw [List.flatMap_cons, List.append_assoc]

/-- `get` accepts exactly the strings that begin with what `put` writes for a fitting element, and
on all others, `bs`, it raises `e bs`. What it reads may be a normal form, `wire`, of what was
written. -/
structure Recognizes (e : Bytes → ε) (put : α → Bytes) (fits : α → Prop) (wire : α → α)
    (get : Reader ε α) : Prop where
  reads : ∀ a, fits a → ReadsAs put get a (wire a)
  only : ReadsOnly put fits get
  raises : RaisesOnly e get

namespace Recognizes

variable {e : Bytes → ε} {put : α → Bytes} {fits : α → Prop} {wire : α → α} {get : Reader ε α}
  {a b : α} {bs pre : Bytes}

/-- **The beginning is unique.** -/
theorem unique (h : Recognizes e put fits wire get) (ha : fits a) (hb : fits b)
    (hpa : put a <+: bs) (hpb : put b <+: bs) : put a = put b ∧ wire a = wire b := by
  obtain ⟨resta, rfl⟩ := hpa
  obtain ⟨restb, hbs⟩ := hpb
  have hread := h.reads b hb restb
  rw [hbs, h.reads a ha resta, Except.ok.injEq, Prod.mk.injEq] at hread
  rw [hread.2] at hbs
  exact ⟨(List.append_cancel_right hbs).symm, hread.1⟩

/-- **Cut anywhere, the string is not accepted.** -/
theorem run_of_cut (h : Recognizes e put fits wire get) (ha : fits a) (hpre : pre <+: put a)
    (hne : pre ≠ put a) : get.run pre = .error (e pre) := by
  cases hrun : get.run pre with
  | error e' => rw [h.raises pre e' hrun]
  | ok p =>
    obtain ⟨hfits, hbegin⟩ := h.only pre p.1 p.2 hrun
    have hleads : put p.1 <+: pre := ⟨p.2, hbegin.symm⟩
    have hsame := (h.unique hfits ha (hleads.trans hpre) (List.prefix_refl _)).1
    rw [hsame] at hleads
    exact absurd (hpre.eq_of_length_le hleads.length_le) hne

end Recognizes

/-! ## Decoding -/

theorem run'_eq_ok {get : Reader ε α} {bs : Bytes} {a : α} :
    get.run' bs = .ok a ↔ ∃ rest, get.run bs = .ok (a, rest) := by
  rw [StateT.run'_eq]
  cases get.run bs with
  | error e =>
    constructor
    · rintro ⟨⟩
    · rintro ⟨rest, ⟨⟩⟩
  | ok p =>
    constructor
    · rintro ⟨⟩
      exact ⟨p.2, rfl⟩
    · rintro ⟨rest, ⟨⟩⟩
      rfl

theorem run'_eq_error {get : Reader ε α} {bs : Bytes} {e : ε} :
    get.run' bs = .error e ↔ get.run bs = .error e := by
  rw [StateT.run'_eq]
  cases get.run bs with
  | error e' =>
    constructor
    all_goals
      rintro ⟨⟩
      rfl
  | ok p =>
    constructor
    all_goals rintro ⟨⟩

/-- The strings `decode` accepts are those that begin with the encoding of a fitting value, which
is unique, and encodes what was decoded. All others, and so every cut encoding, `bs`, raise
`e bs`. -/
structure SelfDelimiting (e : Bytes → ε) (encode : α → Bytes) (fits : α → Prop) (wire : α → α)
    (decode : Bytes → Except ε α) : Prop where
  accepts : ∀ bs, (∃ a, decode bs = .ok a) ↔ ∃ a, fits a ∧ encode a <+: bs
  sound : ∀ bs a, decode bs = .ok a → fits a ∧ encode a <+: bs
  unique : ∀ bs a, decode bs = .ok a → ∀ b, fits b → encode b <+: bs →
    encode b = encode a ∧ wire b = a
  cut : ∀ a pre, fits a → pre <+: encode a → pre ≠ encode a → decode pre = .error (e pre)
  raises : ∀ bs e', decode bs = .error e' → e' = e bs

/-- **A reader that recognizes the encodings decodes them.** -/
theorem Recognizes.selfDelimiting {e : Bytes → ε} {put : α → Bytes} {fits : α → Prop} {wire : α → α}
    {get : Reader ε α} (h : Recognizes e put fits wire get) :
    SelfDelimiting e put fits wire fun bs => get.run' bs := by
  have hsound : ∀ bs a, get.run' bs = .ok a → fits a ∧ put a <+: bs := by
    intro bs a hdec
    obtain ⟨rest, hrun⟩ := run'_eq_ok.1 hdec
    obtain ⟨hfits, hbegin⟩ := h.only bs a rest hrun
    exact ⟨hfits, rest, hbegin.symm⟩
  refine ⟨fun bs => ⟨?_, ?_⟩, hsound, ?_, ?_, ?_⟩
  · rintro ⟨a, hdec⟩
    exact ⟨a, hsound bs a hdec⟩
  · rintro ⟨a, hfits, rest, rfl⟩
    exact ⟨wire a, run'_eq_ok.2 ⟨rest, h.reads a hfits rest⟩⟩
  · intro bs a hdec b hfits hbegin
    obtain ⟨hfitsa, hbegina⟩ := hsound bs a hdec
    refine ⟨(h.unique hfits hfitsa hbegin hbegina).1, ?_⟩
    obtain ⟨rest, rfl⟩ := hbegin
    have hread := run'_eq_ok.2 ⟨rest, h.reads b hfits rest⟩
    exact Except.ok.inj (hread.symm.trans hdec)
  · intro a pre hfits hpre hne
    exact run'_eq_error.2 (h.run_of_cut hfits hpre hne)
  · intro bs e' hdec
    exact h.raises bs e' (run'_eq_error.1 hdec)

/-- Decoders of one encoding differ at most in what they raise. -/
theorem SelfDelimiting.ok_of_ok {e e' : Bytes → ε} {encode : α → Bytes} {fits : α → Prop}
    {wire : α → α} {decode decode' : Bytes → Except ε α}
    (h : SelfDelimiting e encode fits wire decode)
    (h' : SelfDelimiting e' encode fits wire decode') {bs : Bytes} {a : α}
    (hdec : decode bs = .ok a) : decode' bs = .ok a := by
  obtain ⟨hfits, hbegin⟩ := h.sound bs a hdec
  obtain ⟨b, hdec'⟩ := (h'.accepts bs).2 ⟨a, hfits, hbegin⟩
  have hb : wire a = b := (h'.unique bs b hdec' a hfits hbegin).2
  have ha : wire a = a := (h.unique bs a hdec a hfits hbegin).2
  rw [hdec', ← hb, ha]

end ByteCodec
