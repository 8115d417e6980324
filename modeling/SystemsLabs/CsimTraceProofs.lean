import SystemsLabs.CsimModelProofs

/-! # Reading the trace file: `processLine` and `parseFile` of `csim.c`

    `parseFile` reads the trace with `fgets` into the 24-byte `linebuf`, and
    `processLine` cuts each line with `strtok(.., " ,")`: the first token's
    first character is the operation, and the second token is read by
    `strtol(.., 16)` as the address. The text functions of the C library are
    modelled on NUL-free character lists, as the C standard describes them:

    * **`strtok`**, **`strtolHex`**, **`fgets`** — a token and where the next
      call resumes; the `long` that `strtol` reads at base 16 (white space,
      sign, `0x` prefix, digits, saturation at `LONG_MAX` and `LONG_MIN`); one
      read of at most `n` characters up to a newline;
    * **`processLine`**, **`readLines`**, **`parseLines`**, **`parseFile`**,
      **`csim`** — the source's functions on top, a dereference of `NULL`
      being `none`, and `main` from `makeSets` to `printSummary`'s statistics;
    * **`parseLines_eq`** — the loop is a parse of every line, then the run
      of `executeInstruction` that `CsimModelProofs` studies;
    * **`csim_traceFile`** — on a trace file written from a list of
      accesses, `csim` computes the statistics of that list, each line read
      back by `processLine_hexLine`;
    * **`csim_blank_line`** — a blank line at the end of a trace crashes
      `csim`: the newline is no delimiter of `strtok`, so it is the line's
      only token, and `strtol` is passed `NULL`. -/

namespace Csim

/-! ## The C library calls -/

/-- The delimiters `" ,"` of `processLine`'s `strtok` calls. -/
def isDelim (c : Char) : Bool := c == ' ' || c == ','

/-- `strtok(s, " ,")`: the token after the leading delimiters, and where the
    next call resumes, past the delimiter it overwrote. `none` is `NULL`. -/
def strtok (s : List Char) : Option (List Char × List Char) :=
  match s.dropWhile isDelim with
  | [] => none
  | t => some (t.takeWhile (fun c => !isDelim c), (t.dropWhile (fun c => !isDelim c)).drop 1)

/-- `isspace` in the C locale. -/
def isSpace (c : Char) : Bool :=
  c == ' ' || c == '\t' || c == '\n' || c == '\x0b' || c == '\x0c' || c == '\r'

/-- The value of a base-16 digit. -/
def hexDigit (c : Char) : Option Nat :=
  if '0' ≤ c ∧ c ≤ '9' then some (c.toNat - '0'.toNat)
  else if 'a' ≤ c ∧ c ≤ 'f' then some (c.toNat - 'a'.toNat + 10)
  else if 'A' ≤ c ∧ c ≤ 'F' then some (c.toNat - 'A'.toNat + 10)
  else none

/-- `strtol`'s digit loop: `acc * 16 + d` while the next character is a digit. -/
def hexDigitsValue (acc : Nat) : List Char → Nat
  | [] => acc
  | c :: cs =>
    match hexDigit c with
    | some d => hexDigitsValue (acc * 16 + d) cs
    | none => acc

/-- `strtol`'s optional sign: whether it is `-`, and the rest. -/
def signOf : List Char → Bool × List Char
  | '-' :: t => (true, t)
  | '+' :: t => (false, t)
  | t => (false, t)

/-- At base 16, `strtol` skips a `0x` or `0X` that a digit follows. -/
def skipHexPrefix : List Char → List Char
  | '0' :: x :: c :: t =>
    if (x == 'x' || x == 'X') && (hexDigit c).isSome then c :: t else '0' :: x :: c :: t
  | t => t

/-- `strtol(s, NULL, 16)`: out of range, the result saturates at `LONG_MAX`
    or `LONG_MIN`. -/
def strtolHex (s : List Char) : Int :=
  let (neg, s) := signOf (s.dropWhile isSpace)
  let v : Int := hexDigitsValue 0 (skipHexPrefix s)
  if neg then max (-v) (-2 ^ 63) else min v (2 ^ 63 - 1)

/-- `fgets(linebuf, n + 1, file)` on the rest of the file: at most `n`
    characters, up to and including a newline, and the rest. -/
def fgets : Nat → List Char → List Char × List Char
  | 0, cs => ([], cs)
  | _ + 1, [] => ([], [])
  | n + 1, c :: cs =>
    if c = '\n' then ([c], cs)
    else
      let r := fgets n cs
      (c :: r.1, r.2)

theorem fgets_append (n : Nat) (cs : List Char) : (fgets n cs).1 ++ (fgets n cs).2 = cs := by
  induction n generalizing cs with
  | zero => rfl
  | succ n ih =>
    cases cs with
    | nil => rfl
    | cons c cs => unfold fgets; split <;> simp [ih]

theorem fgets_fst_ne_nil (n : Nat) (c : Char) (cs : List Char) : (fgets (n + 1) (c :: cs)).1 ≠ [] := by
  unfold fgets; split <;> simp

/-- A read that is not at the end of the file takes at least one character. -/
theorem length_fgets_snd_lt (n : Nat) (c : Char) (cs : List Char) :
    (fgets (n + 1) (c :: cs)).2.length < (c :: cs).length := by
  have h := congrArg List.length (fgets_append (n + 1) (c :: cs))
  have h1 := List.length_pos.mpr (fgets_fst_ne_nil n c cs)
  rw [List.length_append] at h
  omega

/-! ## The functions of `csim.c` -/

/-- `processLine(line)`: the first character of the first token, and the
    second token read by `strtol` at base 16. -/
def processLine (line : List Char) : Option Instruction := do
  let (token, rest) ← strtok line
  let operation := token.headD '\x00'
  let (token, _) ← strtok rest
  pure ⟨strtolHex token, operation⟩

/-- `maxLineLen`, the size of `linebuf`. -/
def maxLineLen : Nat := 24

/-- The lines the loop of `parseFile` reads, one `fgets` each, until the end
    of the file. -/
def readLines (file : List Char) : List (List Char) :=
  match file with
  | [] => []
  | c :: cs => (fgets (maxLineLen - 1) (c :: cs)).1 :: readLines (fgets (maxLineLen - 1) (c :: cs)).2
termination_by file.length
decreasing_by exact length_fgets_snd_lt 22 c cs

/-- The loop of `parseFile`: `processLine`, then `executeInstruction` at
    `time`, one line after the other. -/
def parseLines (cache : Sim) (time : Int) : List (List Char) → Option Sim
  | [] => some cache
  | line :: lines => do
    let instruction ← processLine line
    parseLines (executeInstruction instruction cache time) (time + 1) lines

/-- `parseFile(path, cache)` on the file's contents; `time` starts at 1. -/
def parseFile (file : List Char) (cache : Sim) : Option Sim := parseLines cache 1 (readLines file)

/-- `main` with `-s setBits -E associativity -b blockBits` on a trace file:
    the statistics `printSummary` prints. -/
def csim (setBits associativity blockBits : Nat) (file : List Char) : Option Stats :=
  (parseFile file (makeCache (makeSets setBits associativity) setBits associativity blockBits)).map
    Sim.stats

/-! ## The loop of `parseFile` -/

/-- The loop of `parseFile` runs `executeInstruction` over the instructions
    of all lines, or crashes at a line `processLine` cannot read. -/
theorem parseLines_eq (cache : Sim) (time : Int) (lines : List (List Char)) :
    parseLines cache time lines = (lines.mapM processLine).map (runTrace cache · time) := by
  induction lines generalizing cache time with
  | nil => rfl
  | cons line lines ih =>
    simp only [parseLines, List.mapM_cons]
    cases processLine line with
    | none => rfl
    | some i =>
      simp only [Option.bind_eq_bind, Option.some_bind, ih]
      cases lines.mapM processLine <;> rfl

theorem readLines_of_ne_nil {file : List Char} (h : file ≠ []) :
    readLines file = (fgets (maxLineLen - 1) file).1 :: readLines (fgets (maxLineLen - 1) file).2 := by
  obtain ⟨c, cs, rfl⟩ := List.exists_cons_of_ne_nil h
  rw [readLines]

/-- One read of a line that fits: the whole line. -/
theorem fgets_line {body : List Char} (hb : '\n' ∉ body) {n : Nat} (hn : body.length < n)
    (rest : List Char) : fgets n (body ++ '\n' :: rest) = (body ++ ['\n'], rest) := by
  induction body generalizing n with
  | nil =>
    obtain ⟨k, rfl⟩ := Nat.exists_eq_add_of_lt hn
    simp [fgets]
  | cons c body ih =>
    cases n with
    | zero => exact absurd hn (Nat.not_lt_zero _)
    | succ k =>
      have hc : c ≠ '\n' := fun h => hb (h ▸ List.mem_cons_self _ _)
      rw [List.cons_append, fgets.eq_3, if_neg hc,
        ih (fun h => hb (List.mem_cons_of_mem _ h)) (by simp at hn; omega)]
      rfl

/-! ## Hex addresses -/

theorem toDigitsCore_eq_append (b f n : Nat) (ds : List Char) :
    Nat.toDigitsCore b f n ds = Nat.toDigitsCore b f n [] ++ ds := by
  induction f generalizing n ds with
  | zero => rfl
  | succ f ih =>
    simp only [Nat.toDigitsCore]
    split
    · rfl
    · rw [ih _ (_ :: ds), ih _ [_], List.append_assoc, List.singleton_append]

theorem mem_toDigitsCore {b f n : Nat} (hb : 0 < b) {c : Char} (h : c ∈ Nat.toDigitsCore b f n []) :
    ∃ d < b, c = Nat.digitChar d := by
  induction f generalizing n with
  | zero => simp [Nat.toDigitsCore] at h
  | succ f ih =>
    simp only [Nat.toDigitsCore] at h
    split at h
    · exact ⟨n % b, Nat.mod_lt _ hb, List.mem_singleton.mp h⟩
    · rw [toDigitsCore_eq_append, List.mem_append, List.mem_singleton] at h
      exact h.elim ih fun h => ⟨n % b, Nat.mod_lt _ hb, h⟩

theorem mem_toDigits {b n : Nat} (hb : 0 < b) {c : Char} (h : c ∈ Nat.toDigits b n) :
    ∃ d < b, c = Nat.digitChar d :=
  mem_toDigitsCore hb h

theorem toDigits_ne_nil (b n : Nat) : Nat.toDigits b n ≠ [] := by
  simp only [Nat.toDigits, Nat.toDigitsCore]
  split
  · simp
  · rw [toDigitsCore_eq_append]; simp

/-- The digits `Nat.digitChar` writes, as `strtok` and `strtol` read them. -/
theorem digitChar_facts : ∀ d < 16, hexDigit (Nat.digitChar d) = some d ∧
    isDelim (Nat.digitChar d) = false ∧ isSpace (Nat.digitChar d) = false ∧
    Nat.digitChar d ≠ 'x' ∧ Nat.digitChar d ≠ 'X' ∧ Nat.digitChar d ≠ '-' ∧
    Nat.digitChar d ≠ '+' ∧ Nat.digitChar d ≠ '\n' := by
  decide

theorem hexDigitsValue_append {acc : Nat} {l : List Char} (hl : ∀ c ∈ l, (hexDigit c).isSome)
    (r : List Char) : hexDigitsValue acc (l ++ r) = hexDigitsValue (hexDigitsValue acc l) r := by
  induction l generalizing acc with
  | nil => rfl
  | cons c l ih =>
    obtain ⟨d, hd⟩ := Option.isSome_iff_exists.mp (hl c (List.mem_cons_self _ _))
    simp only [List.cons_append, hexDigitsValue, hd]
    exact ih fun c hc => hl c (List.mem_cons_of_mem _ hc)

theorem hexDigitsValue_toDigitsCore {f n : Nat} (hn : n < f) :
    hexDigitsValue 0 (Nat.toDigitsCore 16 f n []) = n := by
  induction f generalizing n with
  | zero => omega
  | succ f ih =>
    have hd := (digitChar_facts (n % 16) (Nat.mod_lt _ (by omega))).1
    simp only [Nat.toDigitsCore]
    split
    · simp only [hexDigitsValue, hd]; omega
    · rw [toDigitsCore_eq_append, hexDigitsValue_append, ih (by omega)]
      · simp only [hexDigitsValue, hd]; omega
      · intro c hc
        obtain ⟨d, hd, rfl⟩ := mem_toDigitsCore (by omega) hc
        rw [(digitChar_facts d hd).1]; rfl

theorem signOf_of_ne {c : Char} (h1 : c ≠ '-') (h2 : c ≠ '+') (t : List Char) :
    signOf (c :: t) = (false, c :: t) := by
  unfold signOf; split <;> simp_all

theorem skipHexPrefix_of_forall {l : List Char} (h : ∀ c ∈ l, c ≠ 'x' ∧ c ≠ 'X') :
    skipHexPrefix l = l := by
  unfold skipHexPrefix
  split
  · rename_i x c t
    have hx := h x (by simp)
    simp [hx.1, hx.2]
  · rfl

/-- `strtol` reads back the hex digits of `a`, up to `LONG_MAX`. -/
theorem strtolHex_toDigits (a : Nat) : strtolHex (Nat.toDigits 16 a) = min (a : Int) (2 ^ 63 - 1) := by
  obtain ⟨c, cs, hcs⟩ := List.exists_cons_of_ne_nil (toDigits_ne_nil 16 a)
  obtain ⟨d, hd, hc⟩ := mem_toDigits (by decide) (hcs ▸ List.mem_cons_self c cs)
  have hf := digitChar_facts d hd
  rw [← hc] at hf
  have hv : hexDigitsValue 0 (Nat.toDigits 16 a) = a := hexDigitsValue_toDigitsCore (Nat.lt_succ_self a)
  unfold strtolHex
  rw [hcs, List.dropWhile_cons_of_neg (by simp [hf.2.2.1]), signOf_of_ne hf.2.2.2.2.2.1 hf.2.2.2.2.2.2.1,
    ← hcs]
  dsimp only
  rw [skipHexPrefix_of_forall fun c hc' => by
      obtain ⟨d, hd, rfl⟩ := mem_toDigits (by decide) hc'
      exact ⟨(digitChar_facts d hd).2.2.2.1, (digitChar_facts d hd).2.2.2.2.1⟩, hv]
  rfl

/-! ## Trace lines -/

/-- A token followed by a delimiter is what `strtok` returns. -/
theorem strtok_of_token {tok : List Char} (hne : tok ≠ []) (ht : ∀ c ∈ tok, isDelim c = false)
    {c : Char} (hc : isDelim c = true) (rest : List Char) :
    strtok (tok ++ c :: rest) = some (tok, rest) := by
  obtain ⟨t, ts, rfl⟩ := List.exists_cons_of_ne_nil hne
  have ht' : ∀ x ∈ t :: ts, (!isDelim x) = true := fun x hx => by simp [ht x hx]
  unfold strtok
  rw [List.cons_append, List.dropWhile_cons_of_neg (by simp [ht t (List.mem_cons_self _ _)])]
  dsimp only
  rw [← List.cons_append, List.takeWhile_append_of_pos ht', List.dropWhile_append_of_pos ht']
  simp [hc]

/-- `processLine` reads the operation and the hex address of a trace line. -/
theorem processLine_hexLine (op : Char) (a : Nat) (rest : List Char) (hop : isDelim op = false) :
    processLine (op :: ' ' :: (Nat.toDigits 16 a ++ ',' :: rest)) =
      some ⟨min (a : Int) (2 ^ 63 - 1), op⟩ := by
  have h1 := strtok_of_token (List.cons_ne_nil op []) (by simpa using hop) (c := ' ') rfl
    (Nat.toDigits 16 a ++ ',' :: rest)
  have h2 := strtok_of_token (toDigits_ne_nil 16 a) (fun c hc => by
    obtain ⟨d, hd, rfl⟩ := mem_toDigits (by decide) hc; exact (digitChar_facts d hd).2.1) (c := ',') rfl rest
  simp only [List.singleton_append] at h1
  simp only [processLine, h1, h2, strtolHex_toDigits, Option.bind_eq_bind, Option.some_bind]
  rfl

/-- A line of a trace file: the operation, a space, the address in hex, a
    comma, the size of the access, and a newline. -/
def traceLine (e : Instruction × Nat) : List Char :=
  e.1.operation :: ' ' :: (Nat.toDigits 16 e.1.address.toNat ++ ',' :: (Nat.toDigits 10 e.2 ++ ['\n']))

/-- The trace file of a list of accesses and their sizes. -/
def traceFile (entries : List (Instruction × Nat)) : List Char := (entries.map traceLine).flatten

/-- An access a trace line carries as it is: an operation that is no
    delimiter or newline, an address `strtol` reads without saturating, and
    a line that fits `linebuf`. -/
def Readable (e : Instruction × Nat) : Prop :=
  e.1.operation ≠ ' ' ∧ e.1.operation ≠ ',' ∧ e.1.operation ≠ '\n' ∧ 0 ≤ e.1.address ∧
    e.1.address < 2 ^ 63 ∧ (traceLine e).length < maxLineLen

instance (e : Instruction × Nat) : Decidable (Readable e) := by unfold Readable; infer_instance

theorem traceLine_eq (e : Instruction × Nat) : ∃ body, traceLine e = body ++ ['\n'] ∧
    (e.1.operation ≠ '\n' → '\n' ∉ body) := by
  refine ⟨e.1.operation :: ' ' :: (Nat.toDigits 16 e.1.address.toNat ++ ',' :: Nat.toDigits 10 e.2),
    by simp [traceLine], fun hop h => ?_⟩
  simp only [List.mem_cons, List.mem_append] at h
  rcases h with h | h | h | h | h
  · exact hop h.symm
  · exact absurd h (by decide)
  · obtain ⟨d, hd, h⟩ := mem_toDigits (by decide) h; exact (digitChar_facts d hd).2.2.2.2.2.2.2 h.symm
  · exact absurd h (by decide)
  · obtain ⟨d, hd, h⟩ := mem_toDigits (by decide) h
    exact (digitChar_facts d (by omega)).2.2.2.2.2.2.2 h.symm

/-- `fgets` reads a trace file back line by line, and then goes on with what
    follows it. -/
theorem readLines_traceFile_append {entries : List (Instruction × Nat)} (h : ∀ e ∈ entries, Readable e)
    (rest : List Char) : readLines (traceFile entries ++ rest) = entries.map traceLine ++ readLines rest := by
  induction entries with
  | nil => rfl
  | cons e entries ih =>
    obtain ⟨body, hl, hb⟩ := traceLine_eq e
    obtain ⟨-, -, hn, -, -, hlen⟩ := h e (List.mem_cons_self _ _)
    have hfile : traceFile (e :: entries) ++ rest = body ++ '\n' :: (traceFile entries ++ rest) := by
      simp [traceFile, hl]
    have hlen' : body.length < maxLineLen - 1 := by
      rw [hl, List.length_append] at hlen; simp only [List.length_singleton] at hlen; omega
    rw [hfile, readLines_of_ne_nil (by simp), fgets_line (hb hn) hlen',
      ih fun e he => h e (List.mem_cons_of_mem _ he), List.map_cons, hl, List.cons_append]

theorem processLine_traceLine {e : Instruction × Nat} (h : Readable e) :
    processLine (traceLine e) = some e.1 := by
  obtain ⟨h1, h2, -, h0, h63, -⟩ := h
  rw [traceLine, processLine_hexLine _ _ _ (by simp [isDelim, h1, h2]), Int.toNat_of_nonneg h0,
    min_eq_left (by omega)]

/-- The lines of a trace file are read back as its accesses, before whatever
    the lines after them give. -/
theorem mapM_processLine_traceLines {entries : List (Instruction × Nat)} (h : ∀ e ∈ entries, Readable e)
    (lines : List (List Char)) :
    (entries.map traceLine ++ lines).mapM processLine =
      (lines.mapM processLine).map (entries.map Prod.fst ++ ·) := by
  induction entries with
  | nil => simp
  | cons e entries ih =>
    simp only [List.map_cons, List.cons_append, List.mapM_cons,
      processLine_traceLine (h e (List.mem_cons_self _ _)), ih fun e he => h e (List.mem_cons_of_mem _ he)]
    cases lines.mapM processLine <;> rfl

/-- A blank line after the last access makes `processLine` pass `NULL` to
    `strtol`: the newline is the first token, and no second one follows. -/
theorem csim_blank_line (setBits associativity blockBits : Nat) (entries : List (Instruction × Nat))
    (h : ∀ e ∈ entries, Readable e) :
    csim setBits associativity blockBits (traceFile entries ++ ['\n']) = none := by
  have hnl : processLine ['\n'] = none := rfl
  have hf : fgets (maxLineLen - 1) ['\n'] = (['\n'], []) := rfl
  rw [csim, parseFile, parseLines_eq, readLines_traceFile_append h, readLines_of_ne_nil (by simp), hf,
    mapM_processLine_traceLines h, List.mapM_cons, hnl]
  rfl

theorem csim_blank_line_load :
    (∀ e ∈ [((⟨16, 'L'⟩ : Instruction), 1)], Readable e) ∧
      csim 1 1 4 (traceFile [(⟨16, 'L'⟩, 1)] ++ ['\n']) = none :=
  ⟨by decide, csim_blank_line 1 1 4 _ (by decide)⟩

end Csim
