import PagedIndex.Text.Utf8
import Mathlib.Data.List.Basic

/-!
# Where a text breaks off

Bytes that are no text are a text up to some point. `BreaksAt` says which point that is, the end of the longest
beginning that is a text, and how many bytes from there on some text could still have had; `fault` finds both
(`breaksAt_fault`), and they are determined by the bytes (`BreaksAt.unique`).

Characters come first. The ranges that `followers?` lists are those of the bytes of characters, overlong forms and
surrogates left out (`Completes.exists_char`, `completes_of_encode`), so that `character` reads characters and nothing
else, and where it reads none it says why (`reads`). Then a text is read character by character: what is behind one
breaks off as it would without it (`BreaksAt.behind_character`), and where none is read the text breaks off at once
(`BreaksAt.at_front`).
-/

namespace PagedIndex.Text.Utf8

open String (utf8EncodeChar)

/-! ## The bytes of a character -/

/-- A byte that is not the first one of its character. -/
def Tail (b : UInt8) : Prop := 0x80 ≤ b ∧ b ≤ 0xBF

/-- The second byte is one that may follow the first, and `more` are to come then. -/
def Led (lead second : UInt8) (more : Nat) : Prop :=
  ∃ low high, followers? lead = some (low, high, more) ∧ low ≤ second ∧ second ≤ high

/-- Two bytes make 128 to 2047, three bytes 2048 to 65535 without the surrogates, and four bytes what is above. -/
theorem led_iff {lead second : UInt8} {more : Nat} : Led lead second more ↔
    0x80 ≤ second.toNat ∧ second.toNat ≤ 0xBF
      ∧ (more = 0 ∧ 0xC2 ≤ lead.toNat ∧ lead.toNat ≤ 0xDF
        ∨ more = 1 ∧ 0xE0 ≤ lead.toNat ∧ lead.toNat ≤ 0xEF
          ∧ (lead.toNat = 0xE0 → 0xA0 ≤ second.toNat) ∧ (lead.toNat = 0xED → second.toNat ≤ 0x9F)
        ∨ more = 2 ∧ 0xF0 ≤ lead.toNat ∧ lead.toNat ≤ 0xF4
          ∧ (lead.toNat = 0xF0 → 0x90 ≤ second.toNat) ∧ (lead.toNat = 0xF4 → second.toNat ≤ 0x8F)) := by
  unfold Led followers?
  simp only [UInt8.lt_iff_toNat_lt, UInt8.le_iff_toNat_le, ← UInt8.toNat_inj, UInt8.reduceToNat]
  repeat' split
  all_goals
    simp only [Option.some.injEq, Prod.mk.injEq, reduceCtorEq, false_and, exists_false, false_iff, and_assoc,
      exists_eq_left', exists_and_left, UInt8.reduceToNat]
    omega

/-- The least second byte is one that may follow. -/
theorem led_low {lead low high : UInt8} {more : Nat} (h : followers? lead = some (low, high, more)) :
    Led lead low more := by
  refine ⟨low, high, h, UInt8.le_refl low, ?_⟩
  unfold followers? at h
  repeat' split at h
  all_goals simp only [Option.some.injEq, Prod.mk.injEq, reduceCtorEq] at h
  all_goals
    obtain ⟨rfl, rfl, rfl⟩ := h
    decide

/-- Together with the leading byte the bytes make a character. -/
inductive Completes (lead : UInt8) : List UInt8 → Prop
  | alone : lead < 0x80 → Completes lead []
  | led {second : UInt8} {others : List UInt8} :
    Led lead second others.length → (∀ b ∈ others, Tail b) → Completes lead (second :: others)

theorem ofNat_eq_of_toNat {n : Nat} {b : UInt8} (h : n = b.toNat) : UInt8.ofNat n = b := by
  rw [h, UInt8.ofNat_toNat]

theorem exists_toNat_eq {n : Nat} (h : n < 0xD800 ∨ 0xDFFF < n ∧ n < 0x110000) : ∃ c : Char, c.val.toNat = n :=
  ⟨Char.ofNatAux n h, rfl⟩

/-- The number of the character is put together from the low bits of its bytes. -/
theorem Completes.exists_char {lead : UInt8} {others : List UInt8} (h : Completes lead others) :
    ∃ c, utf8EncodeChar c = lead :: others := by
  cases h with
  | alone hlead =>
    simp only [UInt8.lt_iff_toNat_lt, UInt8.reduceToNat] at hlead
    obtain ⟨c, hc⟩ := exists_toNat_eq (n := lead.toNat) (by omega)
    refine ⟨c, ?_⟩
    simp only [utf8EncodeChar, hc]
    rw [if_pos (by omega), UInt8.ofNat_toNat]
  | @led second others hled hothers =>
    simp only [Tail, UInt8.le_iff_toNat_le, UInt8.reduceToNat] at hothers
    obtain ⟨hlow, hhigh, ⟨hmore, hlead⟩ | ⟨hmore, hlead⟩ | ⟨hmore, hlead⟩⟩ := led_iff.mp hled
    · obtain rfl := List.length_eq_zero_iff.mp hmore
      obtain ⟨c, hc⟩ := exists_toNat_eq (n := (lead.toNat - 0xC0) * 64 + (second.toNat - 0x80)) (by omega)
      refine ⟨c, ?_⟩
      simp only [utf8EncodeChar, hc]
      rw [if_neg (by omega), if_pos (by omega), ofNat_eq_of_toNat (b := lead) (by omega),
        ofNat_eq_of_toNat (b := second) (by omega)]
    · obtain ⟨third, rfl⟩ := List.length_eq_one_iff.mp hmore
      have hthird := hothers third List.mem_cons_self
      obtain ⟨c, hc⟩ := exists_toNat_eq
        (n := (lead.toNat - 0xE0) * 4096 + (second.toNat - 0x80) * 64 + (third.toNat - 0x80)) (by omega)
      refine ⟨c, ?_⟩
      simp only [utf8EncodeChar, hc]
      rw [if_neg (by omega), if_neg (by omega), if_pos (by omega), ofNat_eq_of_toNat (b := lead) (by omega),
        ofNat_eq_of_toNat (b := second) (by omega), ofNat_eq_of_toNat (b := third) (by omega)]
    · obtain ⟨third, fourth, rfl⟩ := List.length_eq_two.mp hmore
      have hthird := hothers third List.mem_cons_self
      have hfourth := hothers fourth (List.mem_cons_of_mem _ List.mem_cons_self)
      obtain ⟨c, hc⟩ := exists_toNat_eq (n := (lead.toNat - 0xF0) * 262144 + (second.toNat - 0x80) * 4096
        + (third.toNat - 0x80) * 64 + (fourth.toNat - 0x80)) (by omega)
      refine ⟨c, ?_⟩
      simp only [utf8EncodeChar, hc]
      rw [if_neg (by omega), if_neg (by omega), if_neg (by omega), ofNat_eq_of_toNat (b := lead) (by omega),
        ofNat_eq_of_toNat (b := second) (by omega), ofNat_eq_of_toNat (b := third) (by omega),
        ofNat_eq_of_toNat (b := fourth) (by omega)]

theorem tail_ofNat (n : Nat) : Tail (UInt8.ofNat (n % 64 + 0x80)) := by
  simp only [Tail, UInt8.le_iff_toNat_le, UInt8.toNat_ofNat', UInt8.reduceToNat]
  omega

/-- How many bytes there are is decided by the number of the character, and the low bits go into the last ones. -/
theorem completes_of_encode {c : Char} {lead : UInt8} {others : List UInt8}
    (h : utf8EncodeChar c = lead :: others) : Completes lead others := by
  have hvalid : c.val.toNat < 0xD800 ∨ 0xDFFF < c.val.toNat ∧ c.val.toNat < 0x110000 := c.valid
  simp only [utf8EncodeChar] at h
  generalize c.val.toNat = n at h hvalid
  split at h
  · obtain ⟨rfl, rfl⟩ := List.cons_eq_cons.mp h
    refine .alone ?_
    simp only [UInt8.lt_iff_toNat_lt, UInt8.toNat_ofNat', UInt8.reduceToNat]
    omega
  · split at h
    · obtain ⟨rfl, rfl⟩ := List.cons_eq_cons.mp h
      refine .led (led_iff.mpr ?_) (by simp)
      simp only [UInt8.toNat_ofNat', List.length_nil, true_and]
      omega
    · split at h
      · obtain ⟨rfl, rfl⟩ := List.cons_eq_cons.mp h
        refine .led (led_iff.mpr ?_) ?_
        · simp only [UInt8.toNat_ofNat', List.length_nil, List.length_cons, true_and]
          omega
        · exact List.forall_mem_singleton.mpr (tail_ofNat n)
      · obtain ⟨rfl, rfl⟩ := List.cons_eq_cons.mp h
        refine .led (led_iff.mpr ?_) ?_
        · simp only [UInt8.toNat_ofNat', List.length_nil, List.length_cons, true_and]
          omega
        · exact List.forall_mem_cons.mpr ⟨tail_ofNat _, List.forall_mem_singleton.mpr (tail_ofNat n)⟩

/-! ## Reading one character -/

variable {lead second b : UInt8} {others rest behind : List UInt8} {more length : Nat}

theorem continuation_tail (h : Tail b) :
    continuation length (more + 1) (b :: rest) = continuation (length + 1) more rest := if_pos h

theorem continuation_other (h : ¬ Tail b) :
    continuation length (more + 1) (b :: rest) = .error (some length) := if_neg h

theorem continuation_enough (h : ∀ b ∈ others, Tail b) :
    continuation length others.length (others ++ behind) = .ok () := by
  induction others generalizing length with
  | nil => rfl
  | cons b others ih =>
    obtain ⟨hb, hothers⟩ := List.forall_mem_cons.mp h
    rw [List.length_cons, List.cons_append, continuation_tail hb, ih hothers]

theorem continuation_wrong (hmore : others.length < more) (h : ∀ b ∈ others, Tail b) (hb : ¬ Tail b) :
    continuation length more (others ++ b :: behind) = .error (some (length + others.length)) := by
  induction others generalizing length more with
  | nil =>
    obtain ⟨more, rfl⟩ := Nat.exists_eq_add_one.mpr hmore
    exact continuation_other hb
  | cons a others ih =>
    obtain ⟨more, rfl⟩ := Nat.exists_eq_add_one.mpr (Nat.zero_lt_of_lt hmore)
    obtain ⟨ha, hothers⟩ := List.forall_mem_cons.mp h
    rw [List.cons_append, continuation_tail ha, ih (Nat.lt_of_succ_lt_succ hmore) hothers, List.length_cons,
      Nat.add_assoc, Nat.add_comm 1]

/-- What the bytes behind the first two come to. -/
inductive Continued (length more : Nat) : List UInt8 → Except (Option Nat) Unit → Prop
  | enough {others behind : List UInt8} : others.length = more → (∀ b ∈ others, Tail b) →
    Continued length more (others ++ behind) (.ok ())
  | short {others : List UInt8} : others.length < more → (∀ b ∈ others, Tail b) →
    Continued length more others (.error none)
  | wrong {others behind : List UInt8} {b : UInt8} {count : Nat} : others.length < more → (∀ b ∈ others, Tail b) →
    ¬ Tail b → count = length + others.length →
    Continued length more (others ++ b :: behind) (.error (some count))

theorem continued (length more : Nat) (rest : List UInt8) :
    Continued length more rest (continuation length more rest) := by
  induction more generalizing length rest with
  | zero =>
    have h : Continued length 0 ([] ++ rest) (.ok ()) := .enough rfl (List.forall_mem_nil _)
    cases rest <;> exact h
  | succ more ih =>
    cases rest with
    | nil => exact .short (Nat.succ_pos more) (List.forall_mem_nil _)
    | cons b rest =>
      by_cases hb : Tail b
      · rw [continuation_tail hb]
        have h := ih (length + 1) rest
        generalize continuation (length + 1) more rest = outcome at h
        cases h with
        | enough hlen hothers =>
          rw [← List.cons_append]
          exact .enough (congrArg (· + 1) hlen) (List.forall_mem_cons.mpr ⟨hb, hothers⟩)
        | short hlen hothers =>
          exact .short (Nat.succ_lt_succ hlen) (List.forall_mem_cons.mpr ⟨hb, hothers⟩)
        | wrong hlen hothers hother hcount =>
          rw [← List.cons_append]
          refine .wrong (Nat.succ_lt_succ hlen) (List.forall_mem_cons.mpr ⟨hb, hothers⟩) hother ?_
          rw [hcount, List.length_cons, Nat.add_assoc, Nat.add_comm 1]
      · rw [continuation_other hb, ← List.nil_append (b :: rest)]
        exact .wrong (Nat.succ_pos more) (List.forall_mem_nil _) hb rfl

theorem not_lt_of_followers {low high : UInt8} (h : followers? lead = some (low, high, more)) : ¬ lead < 0x80 := by
  have hlead := (led_iff.mp (led_low h)).2
  simp only [UInt8.lt_iff_toNat_lt, UInt8.reduceToNat]
  omega

theorem character_led (h : Led lead second more) :
    character lead (second :: rest) = (continuation 2 more rest).map fun _ => more + 2 := by
  obtain ⟨low, high, hfollowers, hlow, hhigh⟩ := h
  unfold character
  rw [if_neg (not_lt_of_followers hfollowers), hfollowers]
  exact if_pos ⟨hlow, hhigh⟩

theorem Completes.character_eq (h : Completes lead others) (behind : List UInt8) :
    character lead (others ++ behind) = .ok (others.length + 1) := by
  cases h with
  | alone hlead => exact if_pos hlead
  | led hled hothers =>
    rw [List.cons_append, character_led hled, continuation_enough hothers]
    rfl

/-- Bytes of a character that has begun can be followed up to its end. -/
theorem exists_completes (hled : Led lead second more) (hmore : others.length ≤ more) (hothers : ∀ b ∈ others, Tail b) :
    ∃ missing, Completes lead (second :: (others ++ missing)) := by
  refine ⟨List.replicate (more - others.length) 0x80, .led ?_ ?_⟩
  · rwa [List.length_append, List.length_replicate, Nat.add_sub_cancel' hmore]
  · refine List.forall_mem_append.mpr ⟨hothers, fun b hb => ?_⟩
    rw [List.eq_of_mem_replicate hb]
    exact ⟨by decide, by decide⟩

/-- Whatever comes behind these bytes, the leading byte and they do not start with a character. -/
def Excludes (lead : UInt8) (front : List UInt8) : Prop :=
  ∀ others, Completes lead others → ∀ missing behind, front ++ missing ≠ others ++ behind

theorem excludes_of_error {e : Option Nat} (h : ∀ missing, character lead (rest ++ missing) = .error e) :
    Excludes lead rest := by
  intro others hothers missing behind heq
  have hread := hothers.character_eq behind
  rw [← heq, h missing] at hread
  exact absurd hread nofun

/-- What reading a character comes to: its length if there is one; none if bytes are missing; and else the length of
what a character could start with, one at least. -/
inductive Reads (lead : UInt8) : List UInt8 → Except (Option Nat) Nat → Prop
  | whole {others behind : List UInt8} : Completes lead others →
    Reads lead (others ++ behind) (.ok (others.length + 1))
  | unfinished {others missing : List UInt8} : Completes lead (others ++ missing) → Reads lead others (.error none)
  | wrong {rest : List UInt8} {count : Nat} :
    (0 < count → ∃ missing, Completes lead (rest.take count ++ missing)) → Excludes lead (rest.take (count + 1)) →
    Reads lead rest (.error (some (count + 1)))

theorem reads (lead : UInt8) (rest : List UInt8) : Reads lead rest (character lead rest) := by
  by_cases hascii : lead < 0x80
  · have halone := Completes.alone hascii
    rw [← List.nil_append rest, halone.character_eq]
    exact .whole halone
  cases hfollowers : followers? lead with
  | none =>
    have hwrong : ∀ rest, character lead rest = .error (some 1) := by
      intro rest
      unfold character
      rw [if_neg hascii, hfollowers]
    rw [hwrong]
    exact .wrong (fun h => absurd h (Nat.lt_irrefl 0)) (excludes_of_error fun _ => hwrong _)
  | some bounds =>
    obtain ⟨low, high, more⟩ := bounds
    cases rest with
    | nil =>
      have hnone : character lead [] = .error none := by
        unfold character
        rw [if_neg hascii, hfollowers]
      obtain ⟨missing, hmissing⟩ : ∃ missing, Completes lead (low :: ([] ++ missing)) :=
        exists_completes (led_low hfollowers) (Nat.zero_le more) (List.forall_mem_nil _)
      rw [hnone]
      exact .unfinished hmissing
    | cons second rest =>
      by_cases hled : low ≤ second ∧ second ≤ high
      · replace hled : Led lead second more := ⟨low, high, hfollowers, hled⟩
        rw [character_led hled]
        have hcontinued := continued 2 more rest
        generalize continuation 2 more rest = outcome at hcontinued
        cases hcontinued with
        | @enough others behind hlen hothers =>
          subst hlen
          rw [← List.cons_append]
          exact .whole (.led hled hothers)
        | short hlen hothers =>
          obtain ⟨missing, hmissing⟩ := exists_completes hled (Nat.le_of_lt hlen) hothers
          exact .unfinished hmissing
        | @wrong others behind b count hlen hothers hother hcount =>
          obtain rfl : count = others.length + 1 + 1 := by omega
          refine .wrong (fun _ => ?_) (excludes_of_error (e := some (others.length + 1 + 1)) fun missing => ?_)
          · rw [List.take_succ_cons, List.take_left]
            exact exists_completes hled (Nat.le_of_lt hlen) hothers
          · have hfront : (second :: (others ++ b :: behind)).take (others.length + 1 + 1) ++ missing
                = second :: (others ++ b :: missing) := by
              rw [List.take_succ_cons, List.take_length_add_append, List.cons_append, List.append_assoc]
              rfl
            rw [hfront, character_led hled, continuation_wrong hlen hothers hother, Nat.add_comm 2]
            rfl
      · have hwrong : ∀ rest, character lead (second :: rest) = .error (some 1) := by
          intro rest
          unfold character
          rw [if_neg hascii, hfollowers]
          exact if_neg hled
        rw [hwrong]
        exact .wrong (fun h => absurd h (Nat.lt_irrefl 0)) (excludes_of_error fun _ => hwrong _)

/-! ## Texts -/

/-- The bytes are those of a text. -/
def IsText (bytes : List UInt8) : Prop := ∃ s : String, encode s = bytes

/-- With some bytes behind them, the bytes are those of a text. -/
def Begins (bytes : List UInt8) : Prop := ∃ missing, IsText (bytes ++ missing)

theorem encode_ofList (cs : List Char) : encode (String.ofList cs) = cs.flatMap utf8EncodeChar := by
  unfold encode
  rw [String.toUTF8_eq_toByteArray, String.toByteArray_ofList]
  exact List.toList_data_toByteArray

theorem isText_iff {bytes : List UInt8} : IsText bytes ↔ ∃ cs : List Char, cs.flatMap utf8EncodeChar = bytes := by
  constructor
  · rintro ⟨s, rfl⟩
    exact ⟨s.toList, by rw [← encode_ofList, String.ofList_toList]⟩
  · rintro ⟨cs, rfl⟩
    exact ⟨String.ofList cs, encode_ofList cs⟩

theorem isText_nil : IsText [] := isText_iff.mpr ⟨[], rfl⟩

theorem Completes.isText (h : Completes lead others) (hbehind : IsText behind) :
    IsText (lead :: (others ++ behind)) := by
  obtain ⟨c, hc⟩ := h.exists_char
  obtain ⟨cs, rfl⟩ := isText_iff.mp hbehind
  exact isText_iff.mpr ⟨c :: cs, by rw [List.flatMap_cons, hc, List.cons_append]⟩

/-- A text that is not empty starts with a character. -/
theorem IsText.exists_completes (h : IsText (lead :: rest)) :
    ∃ others behind, rest = others ++ behind ∧ Completes lead others ∧ IsText behind := by
  obtain ⟨cs, hcs⟩ := isText_iff.mp h
  cases cs with
  | nil => exact absurd hcs nofun
  | cons c cs =>
    rw [List.flatMap_cons] at hcs
    cases hc : utf8EncodeChar c with
    | nil => exact absurd hc String.utf8EncodeChar_ne_nil
    | cons first others =>
      rw [hc] at hcs
      obtain ⟨rfl, rfl⟩ := List.cons_eq_cons.mp hcs
      exact ⟨others, _, rfl, completes_of_encode hc, isText_iff.mpr ⟨cs, rfl⟩⟩

theorem Completes.isText_iff (h : Completes lead others) : IsText (lead :: (others ++ behind)) ↔ IsText behind := by
  refine ⟨fun htext => ?_, h.isText⟩
  obtain ⟨others', behind', heq, h', hbehind'⟩ := htext.exists_completes
  -- the two characters are as long as the one that is read, and so they are the same
  have hread := h.character_eq behind
  rw [heq, h'.character_eq behind'] at hread
  have hlen : others'.length = others.length := Nat.succ.inj (Except.ok.inj hread)
  obtain ⟨rfl, rfl⟩ := List.append_inj heq hlen.symm
  exact hbehind'

theorem Completes.begins_iff (h : Completes lead others) : Begins (lead :: (others ++ behind)) ↔ Begins behind := by
  unfold Begins
  simp only [List.cons_append, List.append_assoc, h.isText_iff]

theorem Excludes.not_begins (h : Excludes lead rest) (missing : List UInt8) : ¬ Begins (lead :: (rest ++ missing)) := by
  rintro ⟨more, htext⟩
  rw [List.cons_append, List.append_assoc] at htext
  obtain ⟨others, behind, heq, hothers, -⟩ := htext.exists_completes
  exact h others hothers _ _ heq

theorem Begins.front {front bytes : List UInt8} (h : Begins bytes) (hfront : front <+: bytes) : Begins front := by
  obtain ⟨behind, rfl⟩ := hfront
  obtain ⟨missing, htext⟩ := h
  exact ⟨behind ++ missing, by rwa [← List.append_assoc]⟩

/-! ## Where a text breaks off -/

/-- Up to `start` the bytes are a text, and no longer beginning of them is one. No `length` is given if they could go on
as a text behind their end; else it counts the bytes from `start` up to the first with which no text goes on, without
that one if it is not the first of all. -/
structure BreaksAt (bytes : List UInt8) (start : Nat) (length : Option Nat) : Prop where
  start_lt : start < bytes.length
  isText : IsText (bytes.take start)
  longest : ∀ n, start < n → n ≤ bytes.length → ¬ IsText (bytes.take n)
  unfinished : length = none ↔ Begins bytes
  sequence : ∀ count, length = some count → 0 < count ∧ (1 < count → Begins (bytes.take (start + count)))
    ∧ ¬ Begins (bytes.take (start + count + 1))

namespace BreaksAt

variable {bytes : List UInt8} {start start' : Nat} {length length' : Option Nat}

theorem not_isText (h : BreaksAt bytes start length) : ¬ IsText bytes := by
  have hall := h.longest bytes.length h.start_lt (Nat.le_refl _)
  rwa [List.take_length] at hall

theorem start_le (h : BreaksAt bytes start length) (h' : BreaksAt bytes start' length') : start' ≤ start :=
  Nat.not_lt.mp fun hlt => h.longest start' hlt (Nat.le_of_lt h'.start_lt) h'.isText

theorem count_le {count count' : Nat} (h : BreaksAt bytes start (some count))
    (h' : BreaksAt bytes start (some count')) : count' ≤ count := by
  refine Nat.not_lt.mp fun hlt => ?_
  obtain ⟨hpos, -, hexcluded⟩ := h.sequence count rfl
  obtain ⟨-, hbegins, -⟩ := h'.sequence count' rfl
  exact hexcluded ((hbegins (Nat.lt_of_le_of_lt hpos hlt)).front (List.take_prefix_take_left (by omega)))

/-- Bytes break off in one way only. -/
theorem unique (h : BreaksAt bytes start length) (h' : BreaksAt bytes start' length') :
    start = start' ∧ length = length' := by
  obtain rfl := Nat.le_antisymm (h'.start_le h) (h.start_le h')
  refine ⟨rfl, ?_⟩
  cases length with
  | none => exact (h'.unfinished.mpr (h.unfinished.mp rfl)).symm
  | some count =>
    cases length' with
    | none => exact absurd (h.unfinished.mpr (h'.unfinished.mp rfl)) nofun
    | some count' => rw [Nat.le_antisymm (h'.count_le h) (h.count_le h')]

/-- Behind a character everything is as it would be without it. -/
theorem behind_character {behind : List UInt8} (hc : Completes lead others) (h : BreaksAt behind start length) :
    BreaksAt (lead :: (others ++ behind)) (others.length + 1 + start) length := by
  have htake : ∀ n, (lead :: (others ++ behind)).take (others.length + 1 + n) = lead :: (others ++ behind.take n) := by
    intro n
    rw [Nat.add_right_comm, List.take_succ_cons, List.take_length_add_append]
  constructor
  · rw [List.length_cons, List.length_append]
    have := h.start_lt
    omega
  · rw [htake, hc.isText_iff]
    exact h.isText
  · intro n hstart hn
    obtain ⟨m, rfl⟩ := Nat.exists_eq_add_of_le (Nat.le_of_lt (Nat.lt_of_le_of_lt (Nat.le_add_right _ _) hstart))
    rw [List.length_cons, List.length_append] at hn
    rw [htake, hc.isText_iff]
    exact h.longest m (by omega) (by omega)
  · rw [hc.begins_iff]
    exact h.unfinished
  · intro count hcount
    rw [Nat.add_assoc _ start, Nat.add_assoc _ (start + count), htake, htake, hc.begins_iff, hc.begins_iff]
    exact h.sequence count hcount

/-- Where no character is read the bytes break off at once. -/
theorem at_front (h : character lead rest = .error length) : BreaksAt (lead :: rest) 0 length := by
  have hreads := reads lead rest
  rw [h] at hreads
  constructor
  · exact Nat.succ_pos _
  · exact isText_nil
  · intro n hn hle htext
    obtain ⟨n, rfl⟩ := Nat.exists_eq_add_one.mpr hn
    obtain ⟨others, behind, heq, hothers, -⟩ := htext.exists_completes
    have hread := hothers.character_eq (behind ++ rest.drop n)
    rw [← List.append_assoc, ← heq, List.take_append_drop, h] at hread
    exact absurd hread nofun
  · cases hreads with
    | @unfinished others missing hmissing =>
      refine iff_of_true rfl ⟨missing, ?_⟩
      have htext := hmissing.isText isText_nil
      rwa [List.append_nil] at htext
    | @wrong _ count hbegins hexcludes =>
      refine iff_of_false nofun ?_
      have hnot := hexcludes.not_begins (rest.drop (count + 1))
      rwa [List.take_append_drop] at hnot
  · rintro count rfl
    cases hreads with
    | @wrong _ count hbegins hexcludes =>
      refine ⟨Nat.succ_pos count, fun hcount => ?_, ?_⟩
      · obtain ⟨missing, hmissing⟩ := hbegins (Nat.lt_of_succ_lt_succ hcount)
        have htext := hmissing.isText isText_nil
        rw [List.append_nil] at htext
        rw [Nat.zero_add, List.take_succ_cons]
        exact ⟨missing, htext⟩
      · have hnot := hexcludes.not_begins []
        rw [List.append_nil] at hnot
        rwa [Nat.zero_add, List.take_succ_cons]

end BreaksAt

theorem faultFrom_append (start : Nat) (others behind : List UInt8) :
    faultFrom start others.length (others ++ behind) = faultFrom (start + others.length) 0 behind := by
  induction others generalizing start with
  | nil => rfl
  | cons b others ih =>
    show faultFrom (start + 1) others.length (others ++ behind) = _
    rw [ih, List.length_cons, Nat.add_assoc, Nat.add_comm 1]

theorem faultFrom_of_completes (h : Completes lead others) (start : Nat) (behind : List UInt8) :
    faultFrom start 0 (lead :: (others ++ behind)) = faultFrom (start + (others.length + 1)) 0 behind := by
  rw [faultFrom, h.character_eq]
  show faultFrom (start + 1) others.length (others ++ behind) = _
  rw [faultFrom_append, Nat.add_assoc, Nat.add_comm 1]

theorem faultFrom_of_error {length : Option Nat} (h : character lead rest = .error length) (start : Nat) :
    faultFrom start 0 (lead :: rest) = (start, length) := by
  rw [faultFrom, h]

/-- What is found, with `start` bytes behind. -/
inductive Faulted (start : Nat) (bytes : List UInt8) : Nat × Option Nat → Prop
  | text : IsText bytes → Faulted start bytes (start + bytes.length, none)
  | breaks {n : Nat} {length : Option Nat} : BreaksAt bytes n length → Faulted start bytes (start + n, length)

theorem faulted (start : Nat) (bytes : List UInt8) : Faulted start bytes (faultFrom start 0 bytes) := by
  -- on the number of bytes, since a character takes one at least
  induction hsize : bytes.length using Nat.strongRecOn generalizing start bytes with
  | ind size ih =>
    subst hsize
    cases bytes with
    | nil => exact .text isText_nil
    | cons lead rest =>
      have hreads := reads lead rest
      cases hread : character lead rest with
      | error length =>
        rw [faultFrom_of_error hread]
        exact .breaks (.at_front hread)
      | ok count =>
        rw [hread] at hreads
        cases hreads with
        | @whole others behind hothers =>
          have hlt : behind.length < (lead :: (others ++ behind)).length := by
            rw [List.length_cons, List.length_append]
            omega
          have hfaulted := ih behind.length hlt (start + (others.length + 1)) behind rfl
          rw [faultFrom_of_completes hothers]
          generalize faultFrom (start + (others.length + 1)) 0 behind = found at hfaulted
          cases hfaulted with
          | text htext =>
            have hlen : start + (others.length + 1) + behind.length = start + (lead :: (others ++ behind)).length := by
              rw [List.length_cons, List.length_append]
              omega
            rw [hlen]
            exact .text (hothers.isText htext)
          | breaks hbreaks =>
            rw [Nat.add_assoc]
            exact .breaks (hbreaks.behind_character hothers)

/-- Bytes that are no text break off where `fault` says. -/
theorem breaksAt_fault {bytes : List UInt8} (h : ¬ IsText bytes) : BreaksAt bytes (fault bytes).1 (fault bytes).2 := by
  have hfaulted := faulted 0 bytes
  unfold fault
  generalize faultFrom 0 0 bytes = found at hfaulted ⊢
  cases hfaulted with
  | text htext => exact absurd htext h
  | breaks hbreaks =>
    rw [Nat.zero_add]
    exact hbreaks

/-- A letter, and then the first two bytes of a character of three. -/
example : fault [0x61, 0xE2, 0x82, 0x28] = (1, some 2) := by decide

end PagedIndex.Text.Utf8
