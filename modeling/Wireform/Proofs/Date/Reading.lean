/-
# Reading a date that was written

A day, a clock reading and an offset that stand in a text one behind the other are read
back by the form of date that has these parts, and no form that is tried before takes the
text: a timestamp needs an offset at its end, and a mail date starts with a weekday or with
the day of the month, behind which there is a blank and not a third digit.

Key definitions: `Day.text`, `Clock.minuteText`, `Clock.secondText`, `Moment.Separator.mark`.
Key theorems: `Moment.dayField_text`, `Moment.ofTimestamp?_text`, `Moment.ofMailDate?_text`,
`Moment.ofDayAndSecond?_eq`, `Moment.ofDayAndMinute?_eq`.
-/
import Wireform.Date.Forms
import Wireform.Proofs.Date.Day
import Wireform.Proofs.Date.Scan

namespace Wireform

open Text Scan

/-! ### Written parts -/

/-- A day as it is written in canonical form. -/
def Day.text (d : Day) : List Char :=
  Moment.yearText d.year ++ '-' :: (padded 2 d.month ++ '-' :: padded 2 d.day)

namespace Clock

/-- Hours and minutes. -/
def minuteText (c : Clock) : List Char := padded 2 c.hour ++ ':' :: padded 2 c.minute

/-- Hours, minutes and seconds. -/
def secondText (c : Clock) : List Char := c.minuteText ++ ':' :: padded 2 c.second

theorem of?_self (c : Clock) : of? c.hour c.minute c.second c.nano = some c :=
  dif_pos ⟨c.hour_lt, c.minute_lt, c.second_le, c.nano_lt⟩

/-- The beginning of the same minute. -/
def toMinute (c : Clock) : Clock :=
  ⟨c.hour, c.minute, 0, 0, c.hour_lt, c.minute_lt, midnight.second_le, midnight.nano_lt⟩

theorem of?_toMinute (c : Clock) : of? c.hour c.minute 0 0 = some c.toMinute := c.toMinute.of?_self

end Clock

/-- What is written between day and time. -/
def Moment.Separator.mark : Separator → Char
  | .letter => 'T'
  | .blank => ' '

theorem Day.month_lt_hundred (d : Day) : d.month < 10 ^ 2 := by
  have := d.month_le
  omega

theorem Day.day_lt_hundred (d : Day) : d.day < 10 ^ 2 := by
  have hle := d.day_le
  have : Calendar.monthLength d.year d.month ≤ 31 := by
    unfold Calendar.monthLength
    split_ifs <;> omega
  omega

/-- A year of up to four digits is written without a sign. -/
theorem Moment.yearText_of_le {year : ℤ} (h : 0 ≤ year) (h' : year ≤ 9999) :
    yearText year = padded 4 year.natAbs := by
  rw [yearText, if_neg (by omega), if_neg (by omega)]

theorem Moment.text_eq (m : Moment) : m.text =
    m.day.text ++ 'T' :: (m.clock.secondText ++
      ('.' :: (padded 3 (m.clock.nano / 1000000) ++ ['Z']))) := by
  simp only [text, Day.text, Clock.secondText, Clock.minuteText, List.append_assoc,
    List.cons_append]

/-- A day starts with a digit or a sign. -/
theorem Day.exists_text_cons (d : Day) :
    ∃ c s, d.text = c :: s ∧ isSpace c = false ∧ c.toNat < 65 := by
  unfold Day.text Moment.yearText
  split_ifs
  · exact ⟨_, _, rfl, rfl, by decide⟩
  · exact ⟨_, _, rfl, rfl, by decide⟩
  · obtain ⟨c, s, hcs⟩ := List.exists_cons_of_ne_nil (padded_ne_nil 4 d.year.natAbs)
    have hc : isDigit c = true := isDigit_of_mem_padded (by rw [hcs]; exact List.mem_cons_self)
    refine ⟨c, _, by rw [hcs, List.cons_append], isSpace_of_isDigit hc, ?_⟩
    simp only [isDigit, Bool.and_eq_true, decide_eq_true_eq] at hc
    exact Nat.lt_of_le_of_lt hc.2 (by decide)

namespace Moment

/-! ### Fields -/

section Parts

variable (rest : List Char)

theorem number_month (d : Day) (min : ℕ) (hmin : min ≤ 2) :
    number min 2 (padded 2 d.month ++ rest) = some (d.month, rest) :=
  number_padded rest hmin (by decide) d.month_lt_hundred

theorem number_day (d : Day) (min : ℕ) (hmin : min ≤ 2) :
    number min 2 (padded 2 d.day ++ rest) = some (d.day, rest) :=
  number_padded rest hmin (by decide) d.day_lt_hundred

theorem number_hour (c : Clock) (min : ℕ) (hmin : min ≤ 2) :
    number min 2 (padded 2 c.hour ++ rest) = some (c.hour, rest) :=
  number_padded rest hmin (by decide) (by have := c.hour_lt; omega)

theorem number_minute (c : Clock) (min : ℕ) (hmin : min ≤ 2) :
    number min 2 (padded 2 c.minute ++ rest) = some (c.minute, rest) :=
  number_padded rest hmin (by decide) (by have := c.minute_lt; omega)

theorem number_second (c : Clock) (min : ℕ) (hmin : min ≤ 2) :
    number min 2 (padded 2 c.second ++ rest) = some (c.second, rest) :=
  number_padded rest hmin (by decide) (by have := c.second_le; omega)

theorem field_padded {n : ℕ} (hn : n < 10 ^ 2) :
    field 2 (padded 2 n ++ rest) = some (n, rest) := by
  rw [field, trimStart_padded, number_padded rest (by decide) (by decide) hn]

/-- The digits behind a sign are read to the hyphen. -/
theorem number_signed (n : ℕ) :
    number 1 (padded 4 n ++ '-' :: rest).length (padded 4 n ++ '-' :: rest) =
      some (n, '-' :: rest) := by
  have hlen : 1 ≤ (padded 4 n).length := List.length_pos_iff.mpr (padded_ne_nil 4 n)
  rw [number_append (fun _ h => isDigit_of_mem_padded h) hlen (by simp) (.inr rfl),
    ofDigits_padded]

/-- **A year is read back**, with its sign or without. -/
theorem yearField_yearText (year : ℤ) :
    yearField (yearText year ++ '-' :: rest) = some (year, '-' :: rest) := by
  unfold yearText
  split_ifs with hneg hbig
  · rw [List.cons_append, yearField, trimStart_of_head? rfl]
    show Option.map _ (number 1 _ _) = _
    rw [number_signed, Option.map_some]
    congr 2
    omega
  · rw [List.cons_append, yearField, trimStart_of_head? rfl]
    show Option.map _ (number 1 _ _) = _
    rw [number_signed, Option.map_some]
    congr 2
    omega
  · have hnum : number 1 4 (padded 4 year.natAbs ++ '-' :: rest) =
        some (year.natAbs, '-' :: rest) :=
      number_padded _ (by decide) (by decide) (by omega)
    have hhead : ∀ c s, padded 4 year.natAbs ++ '-' :: rest = c :: s → isDigit c = true := by
      intro c s hcs
      obtain ⟨x, xs, hx⟩ := List.exists_cons_of_ne_nil (padded_ne_nil 4 year.natAbs)
      rw [hx, List.cons_append] at hcs
      cases hcs
      exact isDigit_of_mem_padded (by rw [hx]; exact List.mem_cons_self)
    rw [yearField, trimStart_padded]
    split
    · exact absurd (hhead _ _ ‹_›) (by decide)
    · exact absurd (hhead _ _ ‹_›) (by decide)
    · rw [hnum, Option.map_some]
      congr 2
      dsimp only
      omega

theorem dayField_text (d : Day) : dayField (d.text ++ rest) = some (d, rest) := by
  simp only [Day.text, List.append_assoc, List.cons_append, dayField, yearField_yearText,
    char_cons, field_padded _ d.month_lt_hundred, field_padded _ d.day_lt_hundred, d.of?_self,
    bind, Option.bind]

end Parts

/-! ### Timestamps -/

section FourDigits

variable {d : Day} (h : 0 ≤ d.year) (h' : d.year ≤ 9999)
include h h'

theorem number_year (rest : List Char) :
    number 4 4 (padded 4 d.year.natAbs ++ rest) = some (d.year.natAbs, rest) :=
  number_padded rest (le_refl 4) (by decide) (by omega)

/-- **A timestamp is read back.** -/
theorem ofTimestamp?_text {c : Clock} {offset : ℤ} {fraction zone : List Char}
    (hfraction : pointFraction (fraction ++ zone) = some (c.nano, zone))
    (hzone : timestampOffset zone = some (offset, [])) :
    ofTimestamp? (d.text ++ 'T' :: (c.secondText ++ (fraction ++ zone))) =
      assemble? d c offset := by
  have hnat : (d.year.natAbs : ℤ) = d.year := Int.natAbs_of_nonneg h
  simp only [ofTimestamp?, Day.text, Clock.secondText, Clock.minuteText, yearText_of_le h h',
    List.append_assoc, List.cons_append, number_year h h', char_cons, number_month _ d 2 (le_refl 2),
    number_day _ d 2 (le_refl 2), number_hour _ c 2 (le_refl 2), number_minute _ c 2 (le_refl 2),
    number_second _ c 2 (le_refl 2), hfraction, hzone, hnat, d.of?_self, c.of?_self, bind,
    Option.bind, Option.or, List.isEmpty_nil, if_true]

omit h h' in
/-- What stands between day and time is skipped by a timestamp, too. -/
theorem skip_mark (sep : Separator) (s : List Char) :
    (char 'T' (sep.mark :: s)).or ((char 't' (sep.mark :: s)).or (char ' ' (sep.mark :: s))) =
      some s := by
  cases sep <;> rfl

omit h h' in
theorem skip_nil : (char 'T' []).or ((char 't' []).or (char ' ' [])) = none := rfl

/-- A bare day is no timestamp. -/
theorem ofTimestamp?_day : ofTimestamp? d.text = none := by
  have hday : number 2 2 (padded 2 d.day) = some (d.day, []) := by
    rw [← List.append_nil (padded 2 d.day), number_day [] d 2 (le_refl 2)]
  simp only [ofTimestamp?, Day.text, yearText_of_le h h', number_year h h', char_cons, hday,
    number_month _ d 2 (le_refl 2), skip_nil, bind, Option.bind]

/-- A time to the minute makes no timestamp. -/
theorem ofTimestamp?_minute (sep : Separator) (c : Clock) :
    ofTimestamp? (d.text ++ sep.mark :: c.minuteText) = none := by
  have hminute : number 2 2 (padded 2 c.minute) = some (c.minute, []) := by
    rw [← List.append_nil (padded 2 c.minute), number_minute [] c 2 (le_refl 2)]
  simp only [ofTimestamp?, Day.text, Clock.minuteText, yearText_of_le h h', List.append_assoc,
    List.cons_append, number_year h h', char_cons, skip_mark, hminute, number_month _ d 2 (le_refl 2),
    number_day _ d 2 (le_refl 2), number_hour _ c 2 (le_refl 2), bind, Option.bind]
  rfl

/-- A time to the second without an offset makes no timestamp. -/
theorem ofTimestamp?_second (sep : Separator) (c : Clock) {fraction : List Char}
    (hfraction : pointFraction fraction = some (c.nano, [])) :
    ofTimestamp? (d.text ++ sep.mark :: (c.secondText ++ fraction)) = none := by
  simp only [ofTimestamp?, Day.text, Clock.secondText, Clock.minuteText, yearText_of_le h h',
    List.append_assoc, List.cons_append, number_year h h', char_cons, skip_mark,
    number_month _ d 2 (le_refl 2), number_day _ d 2 (le_refl 2), number_hour _ c 2 (le_refl 2),
    number_minute _ c 2 (le_refl 2), number_second _ c 2 (le_refl 2), hfraction, bind,
    Option.bind]
  rfl

end FourDigits

/-- A year with a sign makes no timestamp. -/
theorem ofTimestamp?_signed {d : Day} (h : ¬(0 ≤ d.year ∧ d.year ≤ 9999)) (rest : List Char) :
    ofTimestamp? (d.text ++ rest) = none := by
  have hyear : number 4 4 (d.text ++ rest) = none := by
    refine number_eq_none (by decide) ?_
    unfold Day.text yearText
    split_ifs
    · rfl
    · rfl
    · omega
  rw [ofTimestamp?, hyear]
  rfl

/-! ### Mail dates -/

theorem toLower_of_lt {c : Char} (h : c.toNat < 65) : c.toLower = c := by
  have hval : ¬ c.val ≥ 'A'.val := by
    intro hge
    have : 65 ≤ c.toNat := hge
    omega
  exact dif_neg fun hand => hval hand.1

/-- No weekday starts with a digit or a sign. -/
theorem letter_of_mem_weekdayNames {n : List Char} (hn : n ∈ weekdayNames) :
    ∃ c s, n = c :: s ∧ 65 ≤ c.toNat := by
  have hall : weekdayNames.all (fun n => n.head?.any (65 ≤ ·.toNat)) = true := by decide
  have hhead : n.head?.any (65 ≤ ·.toNat) = true := List.all_eq_true.mp hall n hn
  obtain ⟨c, hc, hletter⟩ := (Option.any_eq_true _ _).mp hhead
  obtain ⟨s, rfl⟩ := List.head?_eq_some_iff.mp hc
  exact ⟨c, s, rfl, of_decide_eq_true hletter⟩

theorem name_eq_none {s : List Char} (h : ∀ c ∈ s.head?, c.toNat < 65) :
    name weekdayNames s = none := by
  have hne : ∀ n ∈ weekdayNames, (n == (s.take 3).map Char.toLower) = false := by
    intro n hn
    rw [beq_eq_false_iff_ne]
    intro heq
    obtain ⟨c, t, rfl, hletter⟩ := letter_of_mem_weekdayNames hn
    cases s with
    | nil => cases heq
    | cons x s =>
      have hx : x.toNat < 65 := h x rfl
      rw [List.take_succ_cons, List.map_cons, toLower_of_lt hx] at heq
      obtain rfl : c = x := (List.cons.inj heq).1
      omega
  rw [name, List.findIdx?_eq_none_iff.mpr hne, Option.map_none]

/-- Behind two digits of a year there is no blank. -/
theorem number_two_padded {n : ℕ} (hn : n < 10 ^ 4) (rest : List Char) :
    ∃ x s, number 1 2 (padded 4 n ++ rest) = some (x, s) ∧ blanks s = none := by
  have hlen : (padded 4 n).length = 4 := length_padded (by decide) hn
  have htake : ((padded 4 n).take 2).length = 2 := by
    rw [List.length_take]
    omega
  have hdigits (c : Char) (hc : c ∈ (padded 4 n).take 2) : isDigit c = true :=
    isDigit_of_mem_padded (List.mem_of_mem_take hc)
  refine ⟨ofDigits ((padded 4 n).take 2), (padded 4 n).drop 2 ++ rest, ?_, ?_⟩
  · have hread : number 1 2 ((padded 4 n).take 2 ++ ((padded 4 n).drop 2 ++ rest)) =
        some (ofDigits ((padded 4 n).take 2), (padded 4 n).drop 2 ++ rest) :=
      number_append hdigits (by omega) htake.le (.inl htake)
    rw [← hread, ← List.append_assoc, List.take_append_drop]
  · have hdrop : (padded 4 n).drop 2 ≠ [] := by
      rw [Ne, List.drop_eq_nil_iff]
      omega
    obtain ⟨c, s, hcs⟩ := List.exists_cons_of_ne_nil hdrop
    have hc : isDigit c = true :=
      isDigit_of_mem_padded (List.mem_of_mem_drop (by rw [hcs]; exact List.mem_cons_self))
    rw [hcs, List.cons_append, blanks, if_neg (by rw [isSpace_of_isDigit hc]; decide)]

/-- **A text that starts with a day in canonical form is no mail date.** -/
theorem ofMailDate?_text (d : Day) (rest : List Char) : ofMailDate? (d.text ++ rest) = none := by
  obtain ⟨c, s, hcs, hspace, hlt⟩ := d.exists_text_cons
  have htrim : trimStart (d.text ++ rest) = d.text ++ rest := by
    rw [hcs]
    exact trimStart_of_head? hspace
  have hname : name weekdayNames (d.text ++ rest) = none := by
    refine name_eq_none ?_
    rw [hcs]
    rintro _ ⟨⟩
    exact hlt
  simp only [ofMailDate?, leadingWeekday, htrim, hname, bind, Option.bind]
  unfold Day.text yearText
  split_ifs
  · rfl
  · rfl
  · obtain ⟨x, t, hnumber, hblanks⟩ :=
      number_two_padded (n := d.year.natAbs) (by omega)
        ('-' :: (padded 2 d.month ++ '-' :: padded 2 d.day) ++ rest)
    rw [List.append_assoc, hnumber]
    dsimp only
    rw [hblanks]

/-! ### Plain dates -/

section Plain

variable {sep : Separator} {d : Day} {s t : List Char} (hs : dayField s = some (d, t))
include hs

/-- **A time to the second is read back**, if nothing stands behind it. -/
theorem ofDayAndSecond?_eq {c : Clock} {fraction tail : List Char}
    (hskip : sep.skip t = some (c.secondText ++ (fraction ++ tail)))
    (hfraction : pointFraction (fraction ++ tail) = some (c.nano, tail)) :
    ofDayAndSecond? sep s = if tail.isEmpty then some ⟨d, c⟩ else none := by
  have hhour : c.hour < 10 ^ 2 := Nat.lt_trans c.hour_lt (by decide)
  have hminute : c.minute < 10 ^ 2 := Nat.lt_trans c.minute_lt (by decide)
  have hsecond : c.second < 10 ^ 2 := Nat.lt_of_le_of_lt c.second_le (by decide)
  simp only [ofDayAndSecond?, hs, hskip, Clock.secondText, Clock.minuteText, List.append_assoc,
    List.cons_append, field_padded _ hhour, field_padded _ hminute, field_padded _ hsecond,
    char_cons, hfraction, c.of?_self, bind, Option.bind]

/-- **A time to the minute is read back**, if nothing stands behind it. -/
theorem ofDayAndMinute?_eq {c : Clock} {tail : List Char}
    (hskip : sep.skip t = some (c.minuteText ++ tail)) :
    ofDayAndMinute? sep s = if tail.isEmpty then some ⟨d, c.toMinute⟩ else none := by
  have hhour : c.hour < 10 ^ 2 := Nat.lt_trans c.hour_lt (by decide)
  have hminute : c.minute < 10 ^ 2 := Nat.lt_trans c.minute_lt (by decide)
  simp only [ofDayAndMinute?, hs, hskip, Clock.minuteText, List.append_assoc, List.cons_append,
    field_padded _ hhour, field_padded _ hminute, char_cons, c.of?_toMinute, bind, Option.bind]

/-- Seconds are missed where a time ends with the minute. -/
theorem ofDayAndSecond?_minute {c : Clock} (hskip : sep.skip t = some c.minuteText) :
    ofDayAndSecond? sep s = none := by
  have hhour : c.hour < 10 ^ 2 := Nat.lt_trans c.hour_lt (by decide)
  have hminute : field 2 (padded 2 c.minute) = some (c.minute, []) := by
    rw [← List.append_nil (padded 2 c.minute),
      field_padded [] (Nat.lt_trans c.minute_lt (by decide))]
  simp only [ofDayAndSecond?, hs, hskip, Clock.minuteText, field_padded _ hhour, hminute,
    char_cons, bind, Option.bind]
  rfl

/-- Neither form takes a text in which no hour stands behind the day. -/
theorem ofDayAndTime?_eq_none (sep : Separator) (h : (sep.skip t).bind (field 2) = none) :
    ofDayAndSecond? sep s = none ∧ ofDayAndMinute? sep s = none := by
  cases hskip : sep.skip t with
  | none => simp only [ofDayAndSecond?, ofDayAndMinute?, hs, hskip, bind, Option.bind, and_self]
  | some u =>
    rw [hskip, Option.bind_some] at h
    simp only [ofDayAndSecond?, ofDayAndMinute?, hs, hskip, h, bind, Option.bind, and_self]

theorem ofDay?_eq : ofDay? s = if t.isEmpty then some ⟨d, .midnight⟩ else none := by
  simp only [ofDay?, hs, bind, Option.bind]

end Plain

theorem skip_mark_minute (sep : Separator) (c : Clock) (rest : List Char) :
    sep.skip (sep.mark :: (c.minuteText ++ rest)) = some (c.minuteText ++ rest) := by
  cases sep with
  | letter => rfl
  | blank =>
    show some (trimStart _) = _
    rw [trimStart, List.dropWhile_cons_of_pos rfl, ← trimStart, Clock.minuteText,
      List.append_assoc, trimStart_padded]

/-- **A bare day is read back.** -/
theorem ofPlain?_day (d : Day) : ofPlain? d.text = some ⟨d, .midnight⟩ := by
  have hd : dayField d.text = some (d, []) := by
    rw [← List.append_nil d.text, dayField_text]
  obtain ⟨hletter, hletter'⟩ := ofDayAndTime?_eq_none hd .letter rfl
  obtain ⟨hblank, hblank'⟩ := ofDayAndTime?_eq_none hd .blank rfl
  rw [ofPlain?, hletter, hletter', hblank, hblank', ofDay?_eq hd]
  rfl

/-- **A day and a time to the minute are read back.** -/
theorem ofPlain?_minute (d : Day) (sep : Separator) (c : Clock) :
    ofPlain? (d.text ++ sep.mark :: c.minuteText) = some ⟨d, c.toMinute⟩ := by
  have hd := dayField_text (sep.mark :: c.minuteText) d
  have hskip := skip_mark_minute sep c []
  have hread := ofDayAndMinute?_eq hd ((congrArg _ (List.append_nil _).symm).trans hskip)
  rw [List.append_nil] at hskip
  have hmissed := ofDayAndSecond?_minute hd hskip
  cases sep with
  | letter =>
    obtain ⟨hblank, -⟩ := ofDayAndTime?_eq_none hd .blank rfl
    rw [ofPlain?, hmissed, hblank, hread]
    rfl
  | blank =>
    obtain ⟨hletter, hletter'⟩ := ofDayAndTime?_eq_none hd .letter rfl
    rw [ofPlain?, hletter, hmissed, hletter', hread]
    rfl

/-- **A day and a time to the second are read back.** -/
theorem ofPlain?_second (d : Day) (sep : Separator) {c : Clock} {fraction : List Char}
    (hfraction : pointFraction fraction = some (c.nano, [])) :
    ofPlain? (d.text ++ sep.mark :: (c.secondText ++ fraction)) = some ⟨d, c⟩ := by
  have hd := dayField_text (sep.mark :: (c.secondText ++ fraction)) d
  have hskip : sep.skip (sep.mark :: (c.secondText ++ fraction)) =
      some (c.secondText ++ (fraction ++ [])) := by
    rw [List.append_nil, Clock.secondText, List.append_assoc, skip_mark_minute]
  rw [← List.append_nil fraction] at hfraction
  have hread := ofDayAndSecond?_eq hd hskip hfraction
  cases sep with
  | letter =>
    rw [ofPlain?, hread]
    rfl
  | blank =>
    obtain ⟨hletter, -⟩ := ofDayAndTime?_eq_none hd .letter rfl
    rw [ofPlain?, hletter, hread]
    rfl

/-! ### Whole texts -/

/-- A text that starts with a day and does not end with a blank is a timestamp or plain. -/
theorem ofText?_text_append (d : Day) {t : List Char} (ht : t.getLast?.any isSpace = false) :
    ofText? (d.text ++ t) = (ofTimestamp? (d.text ++ t)).or (ofPlain? (d.text ++ t)) := by
  obtain ⟨c, s, hcs, hspace, -⟩ := d.exists_text_cons
  have hlast : (d.text ++ t).getLast?.any isSpace = false := by
    cases t with
    | nil =>
      have hday : d.text ++ [] =
          (yearText d.year ++ '-' :: (padded 2 d.month ++ ['-'])) ++ padded 2 d.day := by
        simp only [Day.text, List.append_nil, List.append_assoc, List.cons_append, List.nil_append]
      rw [hday]
      exact any_isSpace_getLast?_digits (padded_ne_nil 2 d.day) fun _ h => isDigit_of_mem_padded h
    | cons x t => rwa [List.getLast?_append_of_ne_nil _ (List.cons_ne_nil x t)]
  have htrim : trim (d.text ++ t) = d.text ++ t :=
    trim_eq_self (by rw [hcs]; exact hspace) hlast
  have hne : (d.text ++ t).isEmpty = false := by rw [hcs]; rfl
  rw [ofText?, htrim, hne, if_neg Bool.false_ne_true, ofMailDate?_text, Option.none_or]

end Moment
end Wireform
