import Mathlib.Tactic.Common
import OrderedStore.Store.KeyRules

/-!
# The keys a store accepts, by a grammar

A key that opens like structured data is read once, byte by byte, with the closing bytes that are still due on a
stack. What this reading accepts is a nested grammar: a key is a sequence of items, and an item is a byte that
opens, closes and quotes nothing, a quoted string, or a sequence of items between braces or between brackets.

The two meet in what a stack of due closers still asks of the rest of a key: items up to each closer, one closer
after the other, and items after the last. Every byte that the reader accepts turns what is asked of the rest
into what was asked before it; and an item is read without a change to the stack.
-/

namespace OrderedStore.KeyRules

/-! ## The grammar -/

/-- What may stand between two double quotes: a backslash takes the next byte with it, whatever it is. -/
inductive Quotable : Bytes → Prop
  | nil : Quotable []
  | byte {b : UInt8} {s : Bytes} : b ≠ 0x5c → b ≠ 0x22 → Quotable s → Quotable (b :: s)
  | escape {b : UInt8} {s : Bytes} : Quotable s → Quotable (0x5c :: b :: s)

mutual

/-- What structured data is made of. -/
inductive Item : Bytes → Prop
  | byte {b : UInt8} : b ≠ 0x7b → b ≠ 0x7d → b ≠ 0x5b → b ≠ 0x5d → b ≠ 0x22 → Item [b]
  | quoted {s : Bytes} : Quotable s → Item (0x22 :: s ++ [0x22])
  | braces {s : Bytes} : Items s → Item (0x7b :: s ++ [0x7d])
  | brackets {s : Bytes} : Items s → Item (0x5b :: s ++ [0x5d])

/-- Any sequence of items. -/
inductive Items : Bytes → Prop
  | nil : Items []
  | cons {item s : Bytes} : Item item → Items s → Items (item ++ s)

end

/-- A key that begins like structured data. -/
def Opens (key : Bytes) : Prop := key.head? = some 0x7b ∨ key.head? = some 0x5b

/-- A byte that does not print. -/
def Control (b : UInt8) : Prop := b < 0x20 ∨ b = 0x7f

/-- What is wrong with a key that the settings do not allow: each fault is there only if the ones before it are
not. -/
inductive Refused (c : Config) (key : Bytes) : InputError → Prop
  | tooLong : c.keyLimit < key.length → Refused c key (.keyTooLong key.length c.keyLimit)
  | controlByte {front back : Bytes} {b : UInt8} : key.length ≤ c.keyLimit → c.rejectControlBytes = true →
      key = front ++ b :: back → (∀ x ∈ front, ¬ Control x) → Control b →
      Refused c key (.controlByte b front.length)
  | malformed : key.length ≤ c.keyLimit → (c.rejectControlBytes = true → ∀ x ∈ key, ¬ Control x) →
      c.rejectMalformed = true → Opens key → ¬ Items key → Refused c key .malformedStructure

/-! ## What the rest of a key still owes -/

/-- With these closers due, the next one first, the rest of a key has to bring items up to each of them. -/
def Closes : List UInt8 → Bytes → Prop
  | [], s => Items s
  | close :: expected, s => ∃ items rest, s = items ++ close :: rest ∧ Items items ∧ Closes expected rest

/-- The same from inside quotes and from behind a backslash there. -/
def Owes : Mode → List UInt8 → Bytes → Prop
  | .plain, expected, s => Closes expected s
  | .quoted, expected, s => ∃ body rest, s = body ++ 0x22 :: rest ∧ Quotable body ∧ Closes expected rest
  | .escaped, expected, s =>
    ∃ b body rest, s = b :: body ++ 0x22 :: rest ∧ Quotable body ∧ Closes expected rest

variable {expected : List UInt8} {a s : Bytes} {b close : UInt8}

theorem Closes.item (h : Closes expected s) (hitem : Item a) : Closes expected (a ++ s) := by
  cases expected with
  | nil => exact .cons hitem h
  | cons close expected =>
      obtain ⟨items, rest, rfl, hitems, hrest⟩ := h
      exact ⟨a ++ items, rest, by simp, .cons hitem hitems, hrest⟩

/-- What was opened and closed is an item, so nothing of it is owed any more. -/
theorem Closes.opened (h : Closes (close :: expected) s) (hitem : ∀ t, Items t → Item (b :: t ++ [close])) :
    Closes expected (b :: s) := by
  obtain ⟨items, rest, rfl, hitems, hrest⟩ := h
  have := hrest.item (hitem items hitems)
  simpa using this

theorem Closes.closed (h : Closes expected s) : Closes (close :: expected) (close :: s) :=
  ⟨[], s, rfl, .nil, h⟩

/-! ## A reading that succeeds -/

theorem item_of_closer (h : closer? b = some close) {t : Bytes} (ht : Items t) : Item (b :: t ++ [close]) := by
  unfold closer? at h
  split at h
  · cases h
    subst b
    exact .braces ht
  · split at h
    · cases h
      subst b
      exact .brackets ht
    · cases h

theorem closer?_eq_none_iff : closer? b = none ↔ b ≠ 0x7b ∧ b ≠ 0x5b := by
  unfold closer?
  by_cases hbrace : b = 0x7b
  · simp [hbrace]
  · by_cases hbracket : b = 0x5b <;> simp [hbrace, hbracket]

theorem isCloser_iff : isCloser b = true ↔ b = 0x7d ∨ b = 0x5d := by
  simp [isCloser]

/-- **What the reader accepts is what was owed.** -/
theorem owes_of_balanced {mode : Mode} (h : balanced mode expected s = true) : Owes mode expected s := by
  fun_induction balanced mode expected s with
  | case1 mode expected =>
      simp only [Bool.and_eq_true, beq_iff_eq, List.isEmpty_iff] at h
      obtain ⟨rfl, rfl⟩ := h
      exact Items.nil
  | case2 expected b s ih =>
      obtain ⟨body, rest, rfl, hbody, hrest⟩ := ih h
      exact ⟨b, body, rest, rfl, hbody, hrest⟩
  | case3 expected b s ih =>
      by_cases hescape : b = 0x5c
      · simp only [hescape, if_true] at h ih ⊢
        obtain ⟨c, body, rest, rfl, hbody, hrest⟩ := ih h
        exact ⟨0x5c :: c :: body, rest, rfl, .escape hbody, hrest⟩
      · by_cases hquote : b = 0x22
        · subst b
          exact ⟨[], s, rfl, .nil, ih h⟩
        · simp only [hescape, hquote, if_false] at h ih
          obtain ⟨body, rest, rfl, hbody, hrest⟩ := ih h
          exact ⟨b :: body, rest, rfl, .byte hescape hquote hbody, hrest⟩
  | case4 expected s ih =>
      obtain ⟨body, rest, rfl, hbody, hrest⟩ := ih h
      have := hrest.item (.quoted hbody)
      simpa [Owes] using this
  | case5 expected b s hquote close hcloser ih => exact (ih h).opened fun _ => item_of_closer hcloser
  | case6 b s hquote hcloser hcloses close expected ih =>
      simp only [Bool.and_eq_true, beq_iff_eq] at h
      obtain ⟨rfl, h⟩ := h
      exact (ih h).closed
  | case7 b s hquote hcloser hcloses => cases h
  | case8 expected b s hquote hcloser hcloses ih =>
      obtain ⟨hbrace, hbracket⟩ := closer?_eq_none_iff.1 hcloser
      rw [isCloser_iff, not_or] at hcloses
      exact (ih h).item (.byte hbrace hcloses.1 hbracket hcloses.2 hquote)

/-! ## A key that follows the grammar -/

theorem balanced_quotable (h : Quotable a) :
    balanced .quoted expected (a ++ 0x22 :: s) = balanced .plain expected s := by
  induction h with
  | nil => simp [balanced]
  | byte hescape hquote _ ih => simp [balanced, hescape, hquote, ih]
  | escape _ ih => simp [balanced, ih]

mutual

/-- **An item is read without a change to the stack.** -/
theorem balanced_item : ∀ {a : Bytes} (expected : List UInt8) (s : Bytes), Item a →
    balanced .plain expected (a ++ s) = balanced .plain expected s
  | _, expected, s, .byte hbrace hbrace' hbracket hbracket' hquote => by
      have hcloser := closer?_eq_none_iff.2 ⟨hbrace, hbracket⟩
      simp [balanced, hcloser, isCloser, hbrace', hbracket', hquote]
  | _, expected, s, .quoted hbody => by simpa [balanced] using balanced_quotable hbody
  | _, expected, s, .braces hitems => by
      have := balanced_items (0x7d :: expected) (0x7d :: s) hitems
      simpa [balanced, closer?, isCloser] using this
  | _, expected, s, .brackets hitems => by
      have := balanced_items (0x5d :: expected) (0x5d :: s) hitems
      simpa [balanced, closer?, isCloser] using this

theorem balanced_items : ∀ {a : Bytes} (expected : List UInt8) (s : Bytes), Items a →
    balanced .plain expected (a ++ s) = balanced .plain expected s
  | _, expected, s, .nil => rfl
  | _, expected, s, @Items.cons item t hitem hitems => by
      rw [List.append_assoc, balanced_item expected (t ++ s) hitem, balanced_items expected s hitems]

end

/-- **The reader accepts the grammar and nothing else.** -/
theorem balanced_iff_items {s : Bytes} : balanced .plain [] s = true ↔ Items s := by
  constructor
  · intro h
    exact owes_of_balanced h
  · intro h
    have := balanced_items [] [] h
    simpa [balanced] using this

theorem wellFormed_iff {key : Bytes} : wellFormed key = true ↔ (Opens key → Items key) := by
  cases key with
  | nil => simp [wellFormed, Opens]
  | cons b s =>
      have : closer? b = none ↔ ¬ Opens (b :: s) := by simp [closer?_eq_none_iff, Opens]
      simp only [wellFormed, Bool.or_eq_true, Option.isNone_iff_eq_none, this, balanced_iff_items]
      exact imp_iff_not_or.symm

-- In `{"\"}` the backslash takes the second quote with it, and the string never ends.
example : wellFormed [0x7b, 0x22, 0x5c, 0x22, 0x7d] = false := by decide

/-! ## The first control byte -/

theorem isControl_iff : isControl b = true ↔ Control b := by
  simp [isControl, Control]

theorem firstControl?_eq_none_iff {offset : Nat} : firstControl? offset s = none ↔ ∀ x ∈ s, ¬ Control x := by
  induction s generalizing offset with
  | nil => simp [firstControl?]
  | cons x s ih =>
      unfold firstControl?
      by_cases hx : isControl x = true
      · simp [hx, isControl_iff.1 hx]
      · simp [hx, ih, mt isControl_iff.2 hx]

theorem firstControl?_eq_some_iff {offset n : Nat} : firstControl? offset s = some (b, n) ↔
    ∃ front back, s = front ++ b :: back ∧ (∀ x ∈ front, ¬ Control x) ∧ Control b ∧ n = offset + front.length := by
  induction s generalizing offset with
  | nil => simp [firstControl?]
  | cons x s ih =>
      unfold firstControl?
      by_cases hx : isControl x = true
      · rw [if_pos hx]
        constructor
        · intro h
          cases h
          exact ⟨[], s, rfl, by simp, isControl_iff.1 hx, rfl⟩
        · intro h
          obtain ⟨front, back, hsplit, hfront, -, rfl⟩ := h
          cases front with
          | nil =>
              cases hsplit
              rfl
          | cons y front =>
              obtain ⟨rfl, -⟩ := List.cons.inj hsplit
              exact absurd (isControl_iff.1 hx) (hfront _ (by simp))
      · rw [if_neg hx, ih]
        constructor
        · intro h
          obtain ⟨front, back, rfl, hfront, hb, rfl⟩ := h
          refine ⟨x :: front, back, rfl, ?_, hb, ?_⟩
          · intro y hy
            rcases List.mem_cons.1 hy with rfl | hy
            · exact fun h => hx (isControl_iff.2 h)
            · exact hfront y hy
          · simp only [List.length_cons]
            omega
        · intro h
          obtain ⟨front, back, hsplit, hfront, hb, rfl⟩ := h
          cases front with
          | nil =>
              cases hsplit
              exact absurd (isControl_iff.2 hb) hx
          | cons y front =>
              obtain ⟨rfl, rfl⟩ := List.cons.inj hsplit
              refine ⟨front, back, rfl, fun z hz => hfront z (by simp [hz]), hb, ?_⟩
              simp only [List.length_cons]
              omega

/-! ## The check -/

variable {c : Config} {key : Bytes}

theorem forbidden_eq_none_iff : (if c.rejectControlBytes then firstControl? 0 key else none) = none ↔
    (c.rejectControlBytes = true → ∀ x ∈ key, ¬ Control x) := by
  by_cases hset : c.rejectControlBytes = true
  · simp [hset, firstControl?_eq_none_iff]
  · simp [hset]

theorem forbidden_eq_some_iff {n : Nat} :
    (if c.rejectControlBytes then firstControl? 0 key else none) = some (b, n) ↔
      c.rejectControlBytes = true ∧ ∃ front back, key = front ++ b :: back ∧ (∀ x ∈ front, ¬ Control x) ∧
        Control b ∧ n = front.length := by
  by_cases hset : c.rejectControlBytes = true
  · simp [hset, firstControl?_eq_some_iff]
  · simp [hset]

theorem check_of_long (h : c.keyLimit < key.length) :
    check c key = .error (.keyTooLong key.length c.keyLimit) := if_pos h

theorem check_of_forbidden {n : Nat} (hlength : key.length ≤ c.keyLimit)
    (h : (if c.rejectControlBytes then firstControl? 0 key else none) = some (b, n)) :
    check c key = .error (.controlByte b n) := by
  unfold check
  rw [if_neg (Nat.not_lt.2 hlength), h]

theorem check_of_printable (hlength : key.length ≤ c.keyLimit)
    (h : c.rejectControlBytes = true → ∀ x ∈ key, ¬ Control x) :
    check c key = if c.rejectMalformed && !wellFormed key then .error .malformedStructure else .ok () := by
  unfold check
  rw [if_neg (Nat.not_lt.2 hlength), forbidden_eq_none_iff.2 h]

theorem check_of_items (hlength : key.length ≤ c.keyLimit)
    (hprints : c.rejectControlBytes = true → ∀ x ∈ key, ¬ Control x)
    (hitems : c.rejectMalformed = true → Opens key → Items key) : check c key = .ok () := by
  rw [check_of_printable hlength hprints]
  by_cases hset : c.rejectMalformed = true
  · simp [hset, wellFormed_iff.2 (hitems hset)]
  · simp [hset]

theorem check_of_refused {e : InputError} (h : Refused c key e) : check c key = .error e := by
  cases h with
  | tooLong hlong => exact check_of_long hlong
  | controlByte hlength hset hsplit hfront hb =>
      exact check_of_forbidden hlength (forbidden_eq_some_iff.2 ⟨hset, _, _, hsplit, hfront, hb, rfl⟩)
  | malformed hlength hprints hset hopens hitems =>
      have hwell : wellFormed key ≠ true := fun h => hitems (wellFormed_iff.1 h hopens)
      rw [check_of_printable hlength hprints]
      simp [hset, hwell]

/-- A key is allowed or it is refused for one of the three faults. -/
theorem allowed_or_refused (c : Config) (key : Bytes) :
    (key.length ≤ c.keyLimit ∧ (c.rejectControlBytes = true → ∀ x ∈ key, ¬ Control x) ∧
      (c.rejectMalformed = true → Opens key → Items key)) ∨ ∃ e, Refused c key e := by
  by_cases hlength : key.length ≤ c.keyLimit
  · cases hforbidden : if c.rejectControlBytes then firstControl? 0 key else none with
    | some found =>
        obtain ⟨hset, front, back, hsplit, hfront, hb, -⟩ := forbidden_eq_some_iff.1 hforbidden
        exact .inr ⟨_, .controlByte hlength hset hsplit hfront hb⟩
    | none =>
        have hprints := forbidden_eq_none_iff.1 hforbidden
        by_cases hitems : c.rejectMalformed = true → Opens key → Items key
        · exact .inl ⟨hlength, hprints, hitems⟩
        · simp only [Classical.not_imp] at hitems
          obtain ⟨hset, hopens, hitems⟩ := hitems
          exact .inr ⟨_, .malformed hlength hprints hset hopens hitems⟩
  · exact .inr ⟨_, .tooLong (Nat.not_le.1 hlength)⟩

/-- **The check allows what the grammar allows**: a key is allowed just if it is short enough, prints where it
has to, and is a sequence of items if it opens like structured data and has to close like it. Any other key is
refused for the first of these that it lacks. -/
theorem check_judges_by_grammar (c : Config) (key : Bytes) :
    (check c key = .ok () ↔ key.length ≤ c.keyLimit ∧
      (c.rejectControlBytes = true → ∀ x ∈ key, ¬ Control x) ∧
      (c.rejectMalformed = true → Opens key → Items key)) ∧
    ∀ e, check c key = .error e ↔ Refused c key e := by
  have hallows := @check_of_items c key
  have hrefuses := @check_of_refused c key
  constructor
  · constructor
    · intro h
      rcases allowed_or_refused c key with hallowed | ⟨e, he⟩
      · exact hallowed
      · cases h.symm.trans (hrefuses he)
    · intro h
      exact hallows h.1 h.2.1 h.2.2
  · intro e
    constructor
    · intro h
      rcases allowed_or_refused c key with hallowed | ⟨e', he⟩
      · cases h.symm.trans (hallows hallowed.1 hallowed.2.1 hallowed.2.2)
      · cases h.symm.trans (hrefuses he)
        exact he
    · exact hrefuses

end OrderedStore.KeyRules
