import MaiFaSp.Lib.Scanning
import MaiFaSp.Shell.Commands

/-!
# What `ValidateTime` accepts

Six marks of one `sscanf` fix where the fields end, and the blank of its format stands for any run
of white space. So the gap between the date and the time of day is not fixed: it is one blank of
any kind, or two with an hour of one digit behind them.
-/

namespace MaiFaSp.Shell

open DecimalText Scanning

/-! ### Timestamps -/

def Leap (year : ℕ) : Prop := 4 ∣ year ∧ (100 ∣ year → 400 ∣ year)

instance (year : ℕ) : Decidable (Leap year) := inferInstanceAs (Decidable (_ ∧ _))

/-- Of the Gregorian calendar; none for what is no month. -/
def daysInMonth (year : ℕ) : ℕ → ℕ
  | 2 => if Leap year then 29 else 28
  | 4 | 6 | 9 | 11 => 30
  | 1 | 3 | 5 | 7 | 8 | 10 | 12 => 31
  | _ => 0

def DateExists (day month year : ℕ) : Prop := 1 ≤ day ∧ day ≤ daysInMonth year month

/-- `n` decimal digits. -/
def Decimals (n : ℕ) (cs : List Char) : Prop := Digits cs ∧ cs.length = n

structure Fields where
  day : List Char
  month : List Char
  year : List Char
  hour : List Char
  minute : List Char
  second : List Char

namespace Fields

def date (f : Fields) : List Char := f.day ++ ':' :: (f.month ++ ':' :: f.year)

def clock (f : Fields) : List Char := f.hour ++ ':' :: (f.minute ++ ':' :: f.second)

def text (f : Fields) (gap : List Char) : List Char := f.date ++ (gap ++ f.clock)

/-- The widths of the fields, with the one of the hour left open. -/
structure Shape (f : Fields) (hourWidth : ℕ) : Prop where
  day : Decimals 2 f.day
  month : Decimals 2 f.month
  year : Decimals 4 f.year
  hour : Decimals hourWidth f.hour
  minute : Decimals 2 f.minute
  second : Decimals 2 f.second

/-- A date of the calendar from 1980 on, and a time of day. -/
def Denotes (f : Fields) : Prop :=
  DateExists (valueOf f.day) (valueOf f.month) (valueOf f.year) ∧ 1980 ≤ valueOf f.year ∧
    valueOf f.hour ≤ 23 ∧ valueOf f.minute ≤ 59 ∧ valueOf f.second ≤ 59

end Fields

/-- `dd:MM:yyyy hh:mm:ss`, an existing date and time. -/
def Timestamp (time : List Char) : Prop :=
  ∃ f : Fields, f.Shape 2 ∧ f.Denotes ∧ time = f.text [' ']

/-- An existing date and time with another gap: one blank that is no space, or two blanks with an
hour of one digit behind them. -/
def LooselySpaced (time : List Char) : Prop :=
  ∃ (f : Fields) (gap : List Char), (∀ c ∈ gap, isspace c = true) ∧ f.Denotes ∧
    time = f.text gap ∧
      ((f.Shape 2 ∧ gap.length = 1 ∧ gap ≠ [' ']) ∨ (f.Shape 1 ∧ gap.length = 2))

variable {digits blanks rest seps cs : List Char} {sep c : Char} {pos p q : ℕ} {ps : List ℕ}
  {f g : Fields} {gap time : List Char} {n : ℕ}

/-! ### One field -/

theorem isspace_not_digit (h : isspace c = true) : c.isDigit = false := by
  simp only [isspace, decide_eq_true_eq, List.mem_cons, List.not_mem_nil, or_false] at h
  rcases h with rfl | rfl | rfl | rfl | rfl | rfl <;> decide

theorem digit_not_isspace (h : c.isDigit = true) : isspace c = false := by
  cases hc : isspace c with
  | false => rfl
  | true => rw [isspace_not_digit hc] at h; contradiction

/-- No digit, no field. -/
theorem fieldEnds_of_stops (hs : Stops Char.isDigit cs) : fieldEnds seps pos cs = [] := by
  rw [fieldEnds.eq_def]
  simp [takeWhile_of_stops hs]

section

variable (hd : Digits digits) (hnil : digits ≠ []) (hs : Stops Char.isDigit rest)

include hd hnil hs

theorem fieldEnds_last : fieldEnds [] pos (digits ++ rest) = [pos + digits.length] := by
  rw [fieldEnds.eq_def]
  simp [takeWhile_append hd hs, hnil]

theorem fieldEnds_colon :
    fieldEnds (':' :: seps) pos (digits ++ rest) =
      (pos + digits.length) ::
        if rest.head? = some ':' then fieldEnds seps (pos + digits.length + 1) rest.tail
        else [] := by
  rw [fieldEnds.eq_def]
  simp only [takeWhile_append hd hs, dropWhile_append hd hs, if_neg hnil]
  rw [if_neg (by decide)]
  split_ifs <;> rfl

theorem fieldEnds_blank :
    fieldEnds (' ' :: seps) pos (digits ++ rest) =
      (pos + digits.length) ::
        fieldEnds seps (pos + digits.length + (rest.takeWhile isspace).length)
          (rest.drop (rest.takeWhile isspace).length) := by
  rw [fieldEnds.eq_def]
  simp only [takeWhile_append hd hs, dropWhile_append hd hs, if_neg hnil, if_true]

end

/-- What has a first field starts with a digit. -/
theorem exists_of_fieldEnds (h : fieldEnds seps pos cs = p :: ps) :
    ∃ digits rest, cs = digits ++ rest ∧ Digits digits ∧ digits ≠ [] ∧
      Stops Char.isDigit rest := by
  obtain ⟨digits, rest, rfl, hd, hs⟩ := exists_front Char.isDigit cs
  refine ⟨digits, rest, rfl, hd, ?_, hs⟩
  rintro rfl
  rw [List.nil_append, fieldEnds_of_stops hs] at h
  contradiction

/-! ### The marks, read backwards -/

theorem field_last (h : fieldEnds [] pos cs = [p]) :
    ∃ digits rest, cs = digits ++ rest ∧ Digits digits ∧ pos + digits.length = p := by
  obtain ⟨digits, rest, rfl, hd, hnil, hs⟩ := exists_of_fieldEnds h
  rw [fieldEnds_last hd hnil hs] at h
  exact ⟨digits, rest, rfl, hd, (List.cons.inj h).1⟩

theorem field_colon (h : fieldEnds (':' :: seps) pos cs = p :: q :: ps) :
    ∃ digits rest, cs = digits ++ ':' :: rest ∧ Digits digits ∧ digits ≠ [] ∧
      pos + digits.length = p ∧ fieldEnds seps (p + 1) rest = q :: ps := by
  obtain ⟨digits, rest, rfl, hd, hnil, hs⟩ := exists_of_fieldEnds h
  rw [fieldEnds_colon hd hnil hs] at h
  obtain ⟨rfl, htail⟩ := List.cons.inj h
  split_ifs at htail with hhead
  obtain ⟨rest, rfl⟩ := List.head?_eq_some_iff.mp hhead
  exact ⟨digits, rest, rfl, hd, hnil, rfl, htail⟩

theorem field_blank (h : fieldEnds (' ' :: seps) pos cs = p :: q :: ps) :
    ∃ digits blanks rest, cs = digits ++ (blanks ++ rest) ∧ Digits digits ∧
      (∀ c ∈ blanks, isspace c = true) ∧ blanks ≠ [] ∧ pos + digits.length = p ∧
        fieldEnds seps (p + blanks.length) rest = q :: ps := by
  obtain ⟨digits, rest, rfl, hd, hnil, hs⟩ := exists_of_fieldEnds h
  obtain ⟨blanks, rest, rfl, hb, hsb⟩ := exists_front isspace rest
  rw [fieldEnds_blank hd hnil hs, takeWhile_append hb hsb, List.drop_left] at h
  obtain ⟨rfl, htail⟩ := List.cons.inj h
  refine ⟨digits, blanks, rest, rfl, hd, hb, ?_, rfl, htail⟩
  -- without a blank the digits of the next field would belong to this one
  rintro rfl
  rw [List.nil_append] at hs
  rw [fieldEnds_of_stops hs] at htail
  cases htail

/-! ### The fields of a time -/

theorem Decimals.ne_nil (h : Decimals n cs) (hn : n ≠ 0) : cs ≠ [] := by
  rintro rfl
  exact hn h.2.symm

/-- The marks that are checked leave the gap and the hour three characters. -/
theorem fields_of_marks (hlength : time.length = 19)
    (h : fieldEnds separators 0 time = [2, 5, 10, 13, 16, 19]) :
    ∃ (f : Fields) (gap : List Char) (n : ℕ), f.Shape n ∧ n ≠ 0 ∧
      (∀ c ∈ gap, isspace c = true) ∧ gap ≠ [] ∧ gap.length + n = 3 ∧ time = f.text gap := by
  obtain ⟨day, rest, rfl, hday, -, hnday, h⟩ := field_colon h
  obtain ⟨month, rest, rfl, hmonth, -, hnmonth, h⟩ := field_colon h
  obtain ⟨year, gap, rest, rfl, hyear, hgap, hne, hnyear, h⟩ := field_blank h
  obtain ⟨hour, rest, rfl, hhour, hnil, hnhour, h⟩ := field_colon h
  obtain ⟨minute, rest, rfl, hminute, -, hnminute, h⟩ := field_colon h
  obtain ⟨second, rest, rfl, hsecond, hnsecond⟩ := field_last h
  have hhourWidth : hour.length ≠ 0 := fun hzero => hnil (List.length_eq_zero_iff.mp hzero)
  simp only [List.length_append, List.length_cons] at hlength
  obtain rfl : rest = [] := List.length_eq_zero_iff.mp (by omega)
  have hmonthWidth : month.length = 2 := by omega
  have hyearWidth : year.length = 4 := by omega
  have hminuteWidth : minute.length = 2 := by omega
  have hsecondWidth : second.length = 2 := by omega
  refine ⟨⟨day, month, year, hour, minute, second⟩, gap, hour.length, ?_, hhourWidth, hgap, hne,
    by omega, ?_⟩
  · exact ⟨⟨hday, (Nat.zero_add _).symm.trans hnday⟩, ⟨hmonth, hmonthWidth⟩, ⟨hyear, hyearWidth⟩,
      ⟨hhour, rfl⟩, ⟨hminute, hminuteWidth⟩, ⟨hsecond, hsecondWidth⟩⟩
  · simp [Fields.text, Fields.date, Fields.clock]

/-! ### Reading a text of fields -/

theorem fieldEnds_colon_decimals (h : Decimals n digits) (hn : n ≠ 0) :
    fieldEnds (':' :: seps) pos (digits ++ ':' :: rest) =
      (pos + n) :: fieldEnds seps (pos + n + 1) rest := by
  rw [fieldEnds_colon h.1 (h.ne_nil hn) (stops_cons (by decide) rest), h.2]
  rfl

theorem fieldEnds_blank_decimals (h : Decimals n digits) (hn : n ≠ 0)
    (hgap : ∀ c ∈ gap, isspace c = true) (hne : gap ≠ []) (hrest : Stops isspace rest) :
    fieldEnds (' ' :: seps) pos (digits ++ (gap ++ rest)) =
      (pos + n) :: fieldEnds seps (pos + n + gap.length) rest := by
  have hstops : Stops Char.isDigit (gap ++ rest) :=
    stops_append (fun c hc => isspace_not_digit (hgap c hc)) hne rest
  rw [fieldEnds_blank h.1 (h.ne_nil hn) hstops, takeWhile_append hgap hrest, List.drop_left, h.2]

theorem stops_isspace_of_decimals (h : Decimals n digits) (hn : n ≠ 0) (rest : List Char) :
    Stops isspace (digits ++ rest) :=
  stops_append (fun c hc => digit_not_isspace (h.1 c hc)) (h.ne_nil hn) rest

/-- The marks of a text with any gap of blanks. -/
theorem fieldEnds_text (hf : f.Shape n) (hn : n ≠ 0) (hgap : ∀ c ∈ gap, isspace c = true)
    (hne : gap ≠ []) :
    fieldEnds separators 0 (f.text gap) =
      [2, 5, 10, 10 + gap.length + n, 13 + gap.length + n, 16 + gap.length + n] := by
  have hclock : Stops isspace f.clock := stops_isspace_of_decimals hf.hour hn _
  have hlast : fieldEnds [] (14 + gap.length + n) f.second = [16 + gap.length + n] := by
    rw [← List.append_nil f.second, fieldEnds_last hf.second.1 (hf.second.ne_nil (by decide))
      (stops_nil _), hf.second.2]
    congr 1
    omega
  simp only [Fields.text, Fields.date, List.append_assoc, List.cons_append, separators]
  rw [fieldEnds_colon_decimals hf.day (by decide), fieldEnds_colon_decimals hf.month (by decide),
    fieldEnds_blank_decimals hf.year (by decide) hgap hne hclock, Fields.clock,
    fieldEnds_colon_decimals hf.hour hn, fieldEnds_colon_decimals hf.minute (by decide)]
  have hpos : 0 + 2 + 1 + 2 + 1 + 4 + gap.length + n + 1 + 2 + 1 = 14 + gap.length + n := by omega
  rw [hpos, hlast]
  congr 5
  omega

/-- `strtol` on digits. -/
theorem strtol_digits (h : Decimals n digits) (hn : n ≠ 0) (hs : Stops Char.isDigit rest) :
    strtol (digits ++ rest) = some ((valueOf digits : ℤ), rest) := by
  have hstart := dropWhile_of_stops (stops_isspace_of_decimals h hn rest)
  obtain ⟨c, cs, rfl⟩ := List.exists_cons_of_ne_nil (h.ne_nil hn)
  have hc : c.isDigit = true := h.1 c List.mem_cons_self
  have hminus : c ≠ '-' := by rintro rfl; contradiction
  have hplus : c ≠ '+' := by rintro rfl; contradiction
  unfold strtol
  rw [hstart]
  simp only [List.cons_append, List.head?_cons, Option.some.injEq, hminus, hplus, or_self, if_false]
  rw [← List.cons_append, takeWhile_append h.1 hs, dropWhile_append h.1 hs]
  simp

theorem scanFields_colon (h : Decimals n digits) (hn : n ≠ 0) :
    scanFields (':' :: seps) (digits ++ ':' :: rest) =
      (valueOf digits : ℤ) :: scanFields seps rest := by
  have hread := strtol_digits h hn (stops_cons (c := ':') (by decide) rest)
  rw [scanFields.eq_def]
  simp [hread]

theorem scanFields_blank (h : Decimals n digits) (hn : n ≠ 0)
    (hgap : ∀ c ∈ gap, isspace c = true) (hne : gap ≠ []) (hrest : Stops isspace rest) :
    scanFields (' ' :: seps) (digits ++ (gap ++ rest)) =
      (valueOf digits : ℤ) :: scanFields seps rest := by
  have hstops : Stops Char.isDigit (gap ++ rest) :=
    stops_append (fun c hc => isspace_not_digit (hgap c hc)) hne rest
  rw [scanFields.eq_def]
  simp [strtol_digits h hn hstops, dropWhile_append hgap hrest]

theorem scanFields_last (h : Decimals n digits) (hn : n ≠ 0) :
    scanFields [] digits = [(valueOf digits : ℤ)] := by
  have hread := strtol_digits h hn (stops_nil _)
  rw [List.append_nil] at hread
  rw [scanFields.eq_def]
  simp only [hread]

theorem scanFields_text (hf : f.Shape n) (hn : n ≠ 0) (hgap : ∀ c ∈ gap, isspace c = true)
    (hne : gap ≠ []) :
    scanFields separators (f.text gap) =
      [(valueOf f.day : ℤ), (valueOf f.month : ℤ), (valueOf f.year : ℤ), (valueOf f.hour : ℤ),
        (valueOf f.minute : ℤ), (valueOf f.second : ℤ)] := by
  have hclock : Stops isspace f.clock := stops_isspace_of_decimals hf.hour hn _
  simp only [Fields.text, Fields.date, List.append_assoc, List.cons_append, separators]
  rw [scanFields_colon hf.day (by decide), scanFields_colon hf.month (by decide),
    scanFields_blank hf.year (by decide) hgap hne hclock, Fields.clock,
    scanFields_colon hf.hour hn, scanFields_colon hf.minute (by decide),
    scanFields_last hf.second (by decide)]

/-! ### The calendar -/

theorem leap_iff (year : ℕ) :
    Leap year ↔ (year : ℤ) % 400 = 0 ∨ ((year : ℤ) % 100 ≠ 0 ∧ (year : ℤ) % 4 = 0) := by
  unfold Leap
  omega

theorem maxDays_eq (month year : ℕ) (h : 1 ≤ month) (h' : month ≤ 12) :
    maxDays month year = daysInMonth year month := by
  simp only [maxDays, ← leap_iff]
  interval_cases month <;> simp [daysInMonth, apply_ite]

theorem daysInMonth_pos {month year : ℕ} (h : 1 ≤ daysInMonth year month) :
    1 ≤ month ∧ month ≤ 12 ∧ daysInMonth year month ≤ 31 := by
  unfold daysInMonth at *
  split at h <;> simp_all
  split <;> decide

/-- The ranges that are checked are those of the calendar and the clock. -/
theorem validFields_iff (day month year hour minute second : ℕ) :
    validFields [(day : ℤ), (month : ℤ), (year : ℤ), (hour : ℤ), (minute : ℤ), (second : ℤ)] =
        true ↔
      DateExists day month year ∧ 1980 ≤ year ∧ hour ≤ 23 ∧ minute ≤ 59 ∧ second ≤ 59 := by
  simp only [validFields, decide_eq_true_eq, DateExists]
  constructor
  · rintro ⟨-, hhour, -, hminute, -, hsecond, hyear, hmonth, hmonth', hday, -, hmax⟩
    rw [maxDays_eq month year (by omega) (by omega)] at hmax
    omega
  · rintro ⟨⟨hday, hmax⟩, hyear, hhour, hminute, hsecond⟩
    obtain ⟨hmonth, hmonth', hdays⟩ := daysInMonth_pos (hday.trans hmax)
    rw [maxDays_eq month year hmonth hmonth']
    omega

/-! ### What is accepted -/

theorem validateTime_text (hf : f.Shape n) (hn : n ≠ 0) (hgap : ∀ c ∈ gap, isspace c = true)
    (hne : gap ≠ []) (hwidth : gap.length + n = 3) :
    validateTime (f.text gap) = true ↔ f.Denotes := by
  have hlength : (f.text gap).length = 19 := by
    simp only [Fields.text, Fields.date, Fields.clock, List.length_append, List.length_cons,
      hf.day.2, hf.month.2, hf.year.2, hf.hour.2, hf.minute.2, hf.second.2]
    omega
  have hmarks : fieldEnds separators 0 (f.text gap) = [2, 5, 10, 13, 16, 19] := by
    rw [fieldEnds_text hf hn hgap hne]
    simp only [Nat.add_assoc, hwidth]
  unfold validateTime
  rw [scanFields_text hf hn hgap hne, decide_eq_true_eq, validFields_iff]
  exact ⟨fun h => h.2.2, fun h => ⟨hlength, hmarks, h⟩⟩

/-- Accepted are the timestamps and the loosely spaced ones. -/
theorem validateTime_iff (time : List Char) :
    validateTime time = true ↔ Timestamp time ∨ LooselySpaced time := by
  constructor
  · intro h
    obtain ⟨hlength, hmarks, -⟩ := of_decide_eq_true h
    obtain ⟨f, gap, n, hf, hn, hgap, hne, hwidth, rfl⟩ := fields_of_marks hlength hmarks
    have hvalid := (validateTime_text hf hn hgap hne hwidth).mp h
    have hpos := List.length_pos_iff.mpr hne
    obtain rfl | rfl : n = 1 ∨ n = 2 := by omega
    · exact .inr ⟨f, gap, hgap, hvalid, rfl, .inr ⟨hf, by omega⟩⟩
    · by_cases hspace : gap = [' ']
      · exact .inl ⟨f, hf, hvalid, by rw [hspace]⟩
      · exact .inr ⟨f, gap, hgap, hvalid, rfl, .inl ⟨hf, by omega, hspace⟩⟩
  · rintro (⟨f, hf, hvalid, rfl⟩ | ⟨f, gap, hgap, hvalid, rfl, ⟨hf, hone, -⟩ | ⟨hf, htwo⟩⟩)
    · exact (validateTime_text hf (by decide) (by simp [isspace]) (by simp) (by simp)).mpr hvalid
    · have hne : gap ≠ [] := List.ne_nil_of_length_eq_add_one hone
      exact (validateTime_text hf (by decide) hgap hne (by omega)).mpr hvalid
    · have hne : gap ≠ [] := List.ne_nil_of_length_eq_add_one htwo
      exact (validateTime_text hf (by decide) hgap hne (by omega)).mpr hvalid

theorem date_length (hf : f.Shape n) : f.date.length = 10 := by
  simp only [Fields.date, List.length_append, List.length_cons, hf.day.2, hf.month.2, hf.year.2]

/-- The gap shows in the two characters behind the date. -/
theorem not_timestamp_of_loose (h : LooselySpaced time) : ¬ Timestamp time := by
  rintro ⟨f, hf, -, rfl⟩
  obtain ⟨g, gap, hgap, -, htext, hshape⟩ := h
  have hdate : f.date.length = g.date.length := by
    obtain ⟨hg, -⟩ | ⟨hg, -⟩ := hshape
    all_goals rw [date_length hf, date_length hg]
  have hrest : [' '] ++ f.clock = gap ++ g.clock := (List.append_inj htext hdate).2
  obtain ⟨-, hone, hspace⟩ | ⟨-, htwo⟩ := hshape
  · obtain ⟨c, rfl⟩ := List.length_eq_one_iff.mp hone
    exact hspace (by simpa using (List.cons.inj hrest).1.symm)
  · obtain ⟨c, d, rfl⟩ := List.length_eq_two.mp htwo
    -- the second blank would stand for the first digit of the hour
    have hd : d ∈ f.clock.head? := by
      have htail : f.clock = [d] ++ g.clock := (List.cons.inj hrest).2
      simp [htail]
    have hclock : Stops isspace f.clock := stops_isspace_of_decimals hf.hour (by decide) _
    have hdigit := hclock d hd
    rw [hgap d (by simp)] at hdigit
    contradiction

theorem decimals_in_range (h : Decimals n cs) (hn : n ≤ 4) :
    0 ≤ (valueOf cs : ℤ) ∧ (valueOf cs : ℤ) ≤ INT_MAX := by
  have hlt : valueOf cs < 10 ^ n := by
    rw [← h.2]
    exact valueOf_lt_pow cs h.1
  have hle : 10 ^ n ≤ 10 ^ 4 := Nat.pow_le_pow_right (by decide) hn
  unfold INT_MAX
  omega

/-- Behind the check of the marks every `%d` reads a value of `int`. -/
theorem scanned_in_range (hlength : time.length = 19)
    (hmarks : fieldEnds separators 0 time = [2, 5, 10, 13, 16, 19]) :
    ∀ value ∈ scanFields separators time, 0 ≤ value ∧ value ≤ INT_MAX := by
  obtain ⟨f, gap, n, hf, hn, hgap, hne, hwidth, rfl⟩ := fields_of_marks hlength hmarks
  rw [scanFields_text hf hn hgap hne]
  simp only [List.forall_mem_cons, List.not_mem_nil, false_implies, implies_true, and_true]
  exact ⟨decimals_in_range hf.day (by decide), decimals_in_range hf.month (by decide),
    decimals_in_range hf.year (by decide), decimals_in_range hf.hour (by omega),
    decimals_in_range hf.minute (by decide), decimals_in_range hf.second (by decide)⟩

/-- `ValidateTime` accepts exactly the timestamps, as far as a string is not loosely spaced. -/
theorem validate_time_exact_iff (time : List Char) :
    (validateTime time = true ↔ Timestamp time) ↔ ¬ LooselySpaced time := by
  rw [validateTime_iff]
  constructor
  · intro h hloose
    exact not_timestamp_of_loose hloose (h.mp (.inr hloose))
  · intro hloose
    exact ⟨fun h => h.resolve_right hloose, .inl⟩

/-- A tab in the place of the first digit of the hour. -/
theorem validate_time_accepts_tab :
    ¬ (validateTime "01:01:2000 \t0:00:00".toList = true ↔
      Timestamp "01:01:2000 \t0:00:00".toList) := by
  have haccepted : validateTime "01:01:2000 \t0:00:00".toList = true := by decide
  have hloose : LooselySpaced "01:01:2000 \t0:00:00".toList := by
    refine ⟨⟨['0', '1'], ['0', '1'], ['2', '0', '0', '0'], ['0'], ['0', '0'], ['0', '0']⟩,
      [' ', '\t'], by simp [isspace], ⟨⟨by decide, by decide⟩, by decide, by decide, by decide, by decide⟩,
      by decide, .inr ⟨⟨?_, ?_, ?_, ?_, ?_, ?_⟩, rfl⟩⟩
    all_goals exact ⟨by decide, rfl⟩
  exact fun h => not_timestamp_of_loose hloose (h.mp haccepted)

end MaiFaSp.Shell
