import LibNax.Naos.Ipv4

/-!
# Command lines

`naos_cmdline_like_analyze` cuts a command line into words in place: it overwrites what is behind a
word with a zero, and stores a pointer to the word.  The check of its arguments refuses every array
that the words could be stored in.

* `naosCmdlineLikeAnalyze` — the function; a pointer is a position in the line.
* `splitWords` — the words of a line by the grammar that is documented.
* `Analyzed` — what the function promises.
* `analyzed_iff` — it is kept where a quote is not closed, and nowhere else.
-/

set_option autoImplicit false

namespace LibNax

namespace Naos

/-! ## The source -/

/-- `isspace`, in the C locale. -/
def isSpace (c : UInt8) : Bool := c = 0x20 || 0x09 ≤ c && c ≤ 0x0D

/-- A double quote. -/
def quote : UInt8 := 0x22

/-- `strchr` of a character other than zero, from a position on: where the character is, or that it
is not in the string.  There is no result where the string does not end inside of the buffer. -/
def strchr (buffer : List UInt8) (start : Nat) (c : UInt8) : Option (Option Nat) :=
  (buffer.drop start).findIdx? (fun d => d = c || d = 0) |>.map fun i =>
    if buffer[start + i]? = some c then some (start + i) else none

/-- `strlen`, from a position on. -/
def strlen (buffer : List UInt8) (start : Nat) : Option Nat :=
  (buffer.drop start).findIdx? (· = 0)

/-- The array of words: null, or a slot for each word. -/
abbrev Target : Type := Option (List (Option Nat))

/-- `target[count] = start`. -/
def Target.store (target : Target) (count start : Nat) : Option Target :=
  match target with
  | none => none
  | some slots => if count < slots.length then some (some (slots.set count (some start))) else none

/-- The loop of `naos_cmdline_like_analyze`, for the rounds left: the result, the line and the words.
It moves the cursor in each round, and has no result where it reads outside of the line or stores
outside of the array. -/
def analyzeRounds (max : Nat) : Nat → List UInt8 → Target → Nat → Nat →
    Option (Int × List UInt8 × Target)
  | 0, _, _, _, _ => none
  | rounds + 1, cmdline, target, cursor, count =>
    if count < max then do
      let c ← cmdline[cursor]?
      if c = 0 then some (count, cmdline, target)
      else if isSpace c then analyzeRounds max rounds cmdline target (cursor + 1) count
      else if c = quote then
        let start := cursor + 1
        match ← strchr cmdline start quote with
        | none => some (-1, cmdline, target)
        | some stop =>
          let target ← target.store count start
          analyzeRounds max rounds (cmdline.set stop 0) target (stop + 1) (count + 1)
      else
        let start := cursor
        let stop ← match ← strchr cmdline start space with
          | none => (strlen cmdline start).map (start + ·)
          | some stop => some stop
        let target ← target.store count start
        analyzeRounds max rounds (cmdline.set stop 0) target (stop + 1) (count + 1)
    else some (count, cmdline, target)

/-- `naos_cmdline_like_analyze`.  The check refuses an array that is not null. -/
def naosCmdlineLikeAnalyze (cmdline : List UInt8) (target : Target) (max : Int) :
    Option (Int × List UInt8 × Target) :=
  if target.isSome ∨ max ≤ 0 then some (-1, cmdline, target)
  else analyzeRounds max.toNat (cmdline.length + 1) cmdline target 0 0

/-! ## The grammar -/

/-- What is behind the first character that is `c`, where there is one. -/
def behind (c : UInt8) (line : List UInt8) : Option (List UInt8) :=
  if c ∈ line then some (line.dropWhile (· ≠ c)).tail else none

/-- The first `max` words of a line: white space in front of a word is skipped, a word that starts
with a quote extends to the closing quote, and any other word to the next space or to the end.  There
are none where a quote is not closed. -/
def splitWords : Nat → List UInt8 → Option (List (List UInt8))
  | 0, _ => some []
  | max + 1, line =>
    match line.dropWhile isSpace with
    | [] => some []
    | c :: rest =>
      if c = quote then
        match behind quote rest with
        | none => none
        | some next => (splitWords max next).map (rest.takeWhile (· ≠ quote) :: ·)
      else
        (splitWords max ((behind space (c :: rest)).getD [])).map
          ((c :: rest).takeWhile (· ≠ space) :: ·)

/-- One of the first `max` words of a line starts with a quote that is not closed. -/
def Unclosed : Nat → List UInt8 → Prop
  | 0, _ => False
  | max + 1, line =>
    match line.dropWhile isSpace with
    | [] => False
    | c :: rest =>
      if c = quote then
        match behind quote rest with
        | none => True
        | some next => Unclosed max next
      else Unclosed max ((behind space (c :: rest)).getD [])

theorem splitWords_eq_none_iff (max : Nat) : ∀ line, splitWords max line = none ↔
    Unclosed max line := by
  induction max with
  | zero => intro line; simp [splitWords, Unclosed]
  | succ max ih =>
    intro line
    rw [splitWords, Unclosed]
    split
    · simp
    · split
      · split
        · simp
        · rw [Option.map_eq_none_iff, ih]
      · rw [Option.map_eq_none_iff, ih]

/-! ## What the function promises -/

/-- The string at a position of a buffer. -/
def stringAt (buffer : List UInt8) (start : Nat) : List UInt8 := cstring (buffer.drop start)

/-- The function stores the first words of a string and returns their number, or `-1` where a quote
is not closed; the string is in a buffer that ends with its zero. -/
def Analyzed (line : List UInt8) (slots : List (Option Nat)) : Prop :=
  ∃ (status : Int) (cmdline : List UInt8) (target : List (Option Nat)),
    naosCmdlineLikeAnalyze (cstring line ++ [0]) (some slots) slots.length =
      some (status, cmdline, some target) ∧
    match splitWords slots.length (cstring line) with
    | none => status = -1
    | some words => status = words.length ∧
        ∀ (i : Nat) (word : List UInt8), words[i]? = some word →
          ∃ start, target[i]? = some (some start) ∧ stringAt cmdline start = word

/-- **The promise is kept exactly for the lines in which a quote is not closed**: for all others the
function returns `-1`, too. -/
theorem analyzed_iff (line : List UInt8) (slots : List (Option Nat)) :
    Analyzed line slots ↔ Unclosed slots.length (cstring line) := by
  have hrefused : naosCmdlineLikeAnalyze (cstring line ++ [0]) (some slots) slots.length =
      some (-1, cstring line ++ [0], some slots) := if_pos (.inl rfl)
  rw [← splitWords_eq_none_iff]
  constructor
  · rintro ⟨status, cmdline, target, heq, hwords⟩
    obtain rfl : -1 = status := congrArg Prod.fst (Option.some.inj (hrefused.symm.trans heq))
    cases hsplit : splitWords slots.length (cstring line) with
    | none => rfl
    | some words =>
      rw [hsplit] at hwords
      have hcount := hwords.1
      omega
  · intro hnone
    exact ⟨-1, cstring line ++ [0], slots, hrefused, by rw [hnone]⟩

/-- The line `a b` is refused. -/
theorem analyzed_not_words :
    naosCmdlineLikeAnalyze [0x61, 0x20, 0x62, 0] (some [none, none]) 2 =
      some (-1, [0x61, 0x20, 0x62, 0], some [none, none]) ∧
    splitWords 2 [0x61, 0x20, 0x62] = some [[0x61], [0x62]] ∧
    ¬Analyzed [0x61, 0x20, 0x62] [none, none] := by
  refine ⟨rfl, by decide, ?_⟩
  rintro ⟨status, cmdline, target, heq, hwords⟩
  obtain rfl : -1 = status := congrArg Prod.fst (Option.some.inj heq)
  exact absurd hwords.1 (by decide)

end Naos

end LibNax
