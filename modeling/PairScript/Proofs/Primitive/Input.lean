import Mathlib.Data.List.DropRight
import Mathlib.Logic.Function.Iterate
import PairScript.Primitive.Apply
import PairScript.Proofs.Eval.Regime

/-!
# Input is read line by line

A text is made of lines (`Lines`).  A line ends with a line break, which may have a carriage return
before it, or with the text, and what ends a line does not belong to its content.  Whoever reads a
text to its end gets an answer for each of its lines, in order, and then `none` for ever.

What is read of a line is its content without the carriage returns at its end (`Line.reading`).  For
most lines this is the content itself, but a line of which the content ends with carriage returns
loses them: not only the one that belongs to the line break is dropped.

* `Host.encode` is the UTF-8 form of a text; the byte that ends a line stands only for a line break,
  so lines of bytes are lines of characters (`Host.cutLine_encode`);
* `Host.readLine_step` reads one line, and `input_step` calls `input` once;
* `input_is_read_by_lines` is what follows for any number of them.
-/

namespace PairScript

/-! ### Lines -/

/-- What ends a line. -/
inductive LineEnd where
  /-- The end of the text. -/
  | missing
  /-- A line break. -/
  | feed
  /-- A carriage return and a line break. -/
  | returnFeed
deriving Repr, DecidableEq

/-- The characters that end a line. -/
def LineEnd.text : LineEnd → List Char
  | .missing => []
  | .feed => ['\n']
  | .returnFeed => ['\r', '\n']

/-- A line of a text. -/
structure Line where
  content : List Char
  ending : LineEnd
deriving Repr, DecidableEq

/-- A text is made of lines.  A carriage return before a line break belongs to what ends the line,
and only the last line may lack an end. -/
inductive Lines : List Char → List Line → Prop
  | none : Lines [] []
  | last {content : List Char} (within : '\n' ∉ content) (some : content ≠ []) :
      Lines content [⟨content, .missing⟩]
  | feed {content rest : List Char} {ls : List Line} (within : '\n' ∉ content)
      (bare : content.getLast? ≠ some '\r') (others : Lines rest ls) :
      Lines (content ++ '\n' :: rest) (⟨content, .feed⟩ :: ls)
  | returnFeed {content rest : List Char} {ls : List Line} (within : '\n' ∉ content)
      (others : Lines rest ls) :
      Lines (content ++ '\r' :: '\n' :: rest) (⟨content, .returnFeed⟩ :: ls)

/-- Every text is made of lines. -/
theorem exists_lines (cs : List Char) : ∃ ls, Lines cs ls := by
  induction hn : cs.length using Nat.strong_induction_on generalizing cs with
  | _ n ih =>
    subst hn
    have hsplit := List.takeWhile_append_dropWhile (p := (· != '\n')) (l := cs)
    have hwithin : '\n' ∉ cs.takeWhile (· != '\n') := fun h => by
      simpa using List.mem_takeWhile_imp h
    generalize cs.takeWhile (· != '\n') = content at hsplit hwithin
    cases hrest : cs.dropWhile (· != '\n') with
    | nil =>
      obtain rfl : content = cs := by rw [← hsplit, hrest, List.append_nil]
      by_cases hempty : content = []
      · exact ⟨[], hempty ▸ .none⟩
      · exact ⟨_, .last hwithin hempty⟩
    | cons c rest =>
      obtain rfl : c = '\n' := by
        have hhead := List.head?_dropWhile_not (· != '\n') cs
        rw [hrest] at hhead
        simpa using hhead
      rw [hrest] at hsplit
      subst hsplit
      obtain ⟨ls, hls⟩ := ih rest.length (by simp; omega) rest rfl
      by_cases hreturn : content.getLast? = some '\r'
      · obtain ⟨front, rfl⟩ := List.getLast?_eq_some_iff.1 hreturn
        have hfront : '\n' ∉ front := fun h => hwithin (List.mem_append_left _ h)
        exact ⟨⟨front, .returnFeed⟩ :: ls, by simpa using Lines.returnFeed hfront hls⟩
      · exact ⟨_, .feed hwithin hreturn hls⟩

/-- What is read of a line: its content, without the carriage returns at its end. -/
def Line.reading (l : Line) : String := String.ofList (l.content.rdropWhile (· == '\r'))

/-! ### Bytes -/

namespace Host

/-- The UTF-8 form of a text. -/
def encode (cs : List Char) : List UInt8 := cs.flatMap String.utf8EncodeChar

theorem encode_append (cs cs' : List Char) : encode (cs ++ cs') = encode cs ++ encode cs' :=
  List.flatMap_append

theorem encode_toList (text : String) : encode text.toList = text.toUTF8.data.toList := by
  conv => rhs; rw [← String.ofList_toList (s := text)]
  rw [String.toUTF8_eq_toByteArray, String.toByteArray_ofList]
  exact List.toList_data_toByteArray.symm

theorem encode_isEmpty (cs : List Char) : (encode cs).isEmpty = cs.isEmpty := by
  cases cs with
  | nil => rfl
  | cons c cs =>
    rw [encode, List.flatMap_cons]
    cases hc : String.utf8EncodeChar c with
    | nil => exact absurd hc String.utf8EncodeChar_ne_nil
    | cons b bs => rfl

/-- No character but the line break has the byte that ends a line in its UTF-8 form. -/
theorem eq_newline_of_mem {c : Char} (h : newlineByte ∈ String.utf8EncodeChar c) : c = '\n' := by
  have hbyte : ∀ n : ℕ, newlineByte = UInt8.ofNat n → n % 256 = 10 := fun n hn => by
    simpa [newlineByte] using (congrArg UInt8.toNat hn).symm
  rw [String.utf8EncodeChar] at h
  split at h
  next hsmall =>
    have hcode := hbyte _ (List.mem_singleton.1 h)
    exact Char.ext (UInt32.toNat_inj.1 (by simpa using (by omega : c.val.toNat = 10)))
  next =>
    exfalso
    split at h
    next =>
      simp only [List.mem_cons, List.not_mem_nil, or_false] at h
      rcases h with h | h <;> have := hbyte _ h <;> omega
    next =>
      split at h
      next =>
        simp only [List.mem_cons, List.not_mem_nil, or_false] at h
        rcases h with h | h | h <;> have := hbyte _ h <;> omega
      next =>
        simp only [List.mem_cons, List.not_mem_nil, or_false] at h
        rcases h with h | h | h | h <;> have := hbyte _ h <;> omega

theorem encode_within {cs : List Char} (h : '\n' ∉ cs) :
    ∀ b ∈ encode cs, (b != newlineByte) = true := by
  intro b hb
  obtain ⟨c, hc, hmem⟩ := List.mem_flatMap.1 hb
  rw [bne_iff_ne]
  rintro rfl
  exact h (eq_newline_of_mem hmem ▸ hc)

/-- The first line of bytes is the first line of characters. -/
theorem cutLine_encode {content : List Char} (h : '\n' ∉ content) (rest : List Char) :
    cutLine (encode (content ++ '\n' :: rest)) = (encode (content ++ ['\n']), encode rest) := by
  have hbytes := encode_within h
  have hbreak : encode ('\n' :: rest) = newlineByte :: encode rest := rfl
  rw [encode_append, encode_append, hbreak]
  unfold cutLine
  rw [List.takeWhile_append_of_pos hbytes, List.dropWhile_append_of_pos hbytes]
  show (encode content ++ [] ++ [newlineByte], encode rest) = _
  rw [List.append_nil]
  rfl

theorem cutLine_encode_last {content : List Char} (h : '\n' ∉ content) :
    cutLine (encode content) = (encode content, []) := by
  have hbytes := encode_within h
  unfold cutLine
  rw [List.takeWhile_eq_self_iff.2 hbytes, List.dropWhile_eq_nil_iff.2 hbytes]

theorem decode_encode (cs : List Char) : decode? (encode cs) = some (String.ofList cs) := by
  have hbytes : (⟨(encode cs).toArray⟩ : ByteArray) = cs.utf8Encode := by
    rw [ByteArray.ext_iff, List.utf8Encode]
    exact List.data_toByteArray.symm
  rw [decode?, hbytes, String.fromUTF8?, dif_pos ByteArray.isValidUTF8_utf8Encode]
  rfl

/-! ### Reading -/

/-- Trimming drops what ends the line, and the carriage returns before that. -/
theorem trimEnd_ending {content : List Char} (h : '\n' ∉ content) (ending : LineEnd) :
    String.ofList (trimEnd (content ++ ending.text)) = Line.reading ⟨content, ending⟩ := by
  let p : Char → Bool := fun c => c == '\n' || c == '\r'
  have hcontent : content.rdropWhile p = content.rdropWhile (· == '\r') := by
    have hsame : ∀ cs : List Char, (∀ c ∈ cs, c ≠ '\n') →
        cs.dropWhile p = cs.dropWhile (· == '\r') := by
      intro cs hcs
      induction cs with
      | nil => rfl
      | cons c cs ih =>
        obtain ⟨hc, hothers⟩ := List.forall_mem_cons.1 hcs
        simp [p, List.dropWhile_cons, hc, ih hothers]
    unfold List.rdropWhile
    rw [hsame]
    rintro c hc rfl
    exact h (List.mem_reverse.1 hc)
  have hreturn : (content ++ ['\r']).rdropWhile p = content.rdropWhile p :=
    List.rdropWhile_concat_pos p content '\r' rfl
  unfold Line.reading
  rw [← hcontent]
  show String.ofList ((content ++ ending.text).rdropWhile p) = _
  cases ending with
  | missing => rw [LineEnd.text, List.append_nil]
  | feed => rw [LineEnd.text, List.rdropWhile_concat_pos p content '\n' rfl]
  | returnFeed =>
    have hsplit : content ++ ['\r', '\n'] = content ++ ['\r'] ++ ['\n'] := by simp
    rw [LineEnd.text, hsplit, List.rdropWhile_concat_pos p _ '\n' rfl, hreturn]

variable {h : Host} {cs : List Char} {ls : List Line}

theorem readLine_line {content rest : List Char} {ending : LineEnd} (hinput : h.input = encode cs)
    (hcs : cs ≠ []) (within : '\n' ∉ content)
    (hcut : cutLine (encode cs) = (encode (content ++ ending.text), encode rest)) :
    readLine h =
      (.ok (some (Line.reading ⟨content, ending⟩)), { h with input := encode rest }) := by
  have hsome : (encode cs).isEmpty = false := by
    rw [encode_isEmpty]
    simpa using hcs
  unfold readLine
  rw [hinput, hsome, hcut]
  simp only [Bool.false_eq_true, if_false, decode_encode, String.toList_ofList]
  rw [trimEnd_ending within]

/-- **One call reads one line**, if there is one, and leaves the others. -/
theorem readLine_step (hls : Lines cs ls) (hinput : h.input = encode cs) :
    ∃ rest, Lines rest ls.tail ∧
      readLine h = (.ok (ls.head?.map Line.reading), { h with input := encode rest }) := by
  cases hls with
  | none =>
    refine ⟨[], .none, ?_⟩
    have hnone : readLine h = (.ok none, h) := by
      unfold readLine
      rw [hinput]
      rfl
    rw [hnone, ← hinput]
    rfl
  | last within some =>
    refine ⟨[], .none, readLine_line hinput some within ?_⟩
    rw [cutLine_encode_last within, LineEnd.text, List.append_nil]
    rfl
  | feed within bare others =>
    exact ⟨_, others, readLine_line hinput (by simp) within (cutLine_encode within _)⟩
  | @returnFeed content rest ls within others =>
    have hwithin : '\n' ∉ content ++ ['\r'] := by simpa using within
    have hcut := cutLine_encode hwithin rest
    rw [List.append_assoc, List.append_assoc] at hcut
    exact ⟨_, others, readLine_line hinput (by simp) within hcut⟩

/-- What is left after some calls. -/
def afterReads (n : ℕ) (h : Host) : Host := (fun h => (readLine h).2)^[n] h

/-- **Successive calls read the lines in order**, and then nothing more. -/
theorem readLine_afterReads (hls : Lines cs ls) (hinput : h.input = encode cs) (n : ℕ) :
    (readLine (h.afterReads n)).1 = .ok (ls[n]?.map Line.reading) := by
  induction n generalizing h cs ls with
  | zero =>
    obtain ⟨rest, -, hread⟩ := readLine_step hls hinput
    rw [afterReads, Function.iterate_zero, id, hread, List.head?_eq_getElem?]
  | succ n ih =>
    obtain ⟨rest, hrest, hread⟩ := readLine_step hls hinput
    rw [afterReads, Function.iterate_succ_apply, hread, ← List.getElem?_tail]
    exact ih hrest rfl

end Host

/-! ### The primitive -/

namespace Primitive

/-- The value of a line that is asked for. -/
def lineValue (line? : Option Line) : Value := (line?.map fun l => .str l.reading).getD .null

/-- Calls of `input` one after the other, each with or without a prompt. -/
def inputs (line : ℕ) (prompts : List (Option Value)) : Eval (List Value) :=
  prompts.mapM fun prompt => Primitive.input.apply prompt.toList line

variable {m : Machine} {cs : List Char} {ls : List Line} (line : ℕ)

/-- What a host answers, a machine with that host answers. -/
theorem onHost_apply {α : Type} {f : Host → Except HostFailure α × Host} {a : α} {h : Host}
    (hf : f m.host = (.ok a, h)) : Eval.onHost line f m = .ok a { m with host := h } := by
  have hasked : (modifyGet fun m : Machine => ((f m.host).1, { m with host := (f m.host).2 }) :
      Eval (Except HostFailure α)) m = .ok (.ok a) { m with host := h } := by
    show EStateM.Result.ok (f m.host).1 { m with host := (f m.host).2 } = _
    rw [hf]
  exact Eval.bind_of_ok hasked

theorem readLine_step (hls : Lines cs ls) (hinput : m.host.input = Host.encode cs) :
    ∃ rest m', Lines rest ls.tail ∧ m'.host.input = Host.encode rest ∧
      m'.host.sink = m.host.sink ∧ readLine line m = .ok (lineValue ls.head?) m' := by
  obtain ⟨rest, hrest, hread⟩ := Host.readLine_step hls hinput
  refine ⟨rest, { m with host := { m.host with input := Host.encode rest } }, hrest, rfl, rfl, ?_⟩
  refine (Eval.bind_of_ok (onHost_apply line hread)).trans ?_
  cases ls.head? with
  | none => rfl
  | some l => rfl

/-- **One call of `input` reads one line.**  A prompt is written before that, which leaves the input
as it is. -/
theorem input_step {prompt : Option Value} (hls : Lines cs ls)
    (hinput : m.host.input = Host.encode cs)
    (hsink : prompt = none ∨ m.host.sink = .accepting) :
    ∃ rest m', Lines rest ls.tail ∧ m'.host.input = Host.encode rest ∧
      m'.host.sink = m.host.sink ∧
      Primitive.input.apply prompt.toList line m = .ok (lineValue ls.head?) m' := by
  cases prompt with
  | none => exact readLine_step line hls hinput
  | some prompt =>
    have haccepting : m.host.sink = .accepting := hsink.resolve_left nofun
    have hwrite : Host.write prompt.text m.host =
        (.ok (), { m.host with output := m.host.output ++ prompt.text }) := by
      simp only [Host.write, haccepting]
    obtain ⟨rest, m', hrest, hinput', hsink', hread⟩ := readLine_step line
      (m := { m with host := { m.host with output := m.host.output ++ prompt.text } }) hls hinput
    refine ⟨rest, m', hrest, hinput', hsink', ?_⟩
    exact (Eval.bind_of_ok (onHost_apply line hwrite)).trans hread

/-- **Successive calls of `input` give the lines in order**, and then `null`. -/
theorem inputs_eq {prompts : List (Option Value)} (hls : Lines cs ls)
    (hinput : m.host.input = Host.encode cs)
    (hsink : (∀ p ∈ prompts, p = none) ∨ m.host.sink = .accepting) :
    ∃ m', inputs line prompts m =
      .ok ((List.range prompts.length).map fun i => lineValue ls[i]?) m' := by
  induction prompts generalizing m cs ls with
  | nil => exact ⟨m, rfl⟩
  | cons prompt prompts ih =>
    obtain ⟨rest, m₁, hrest, hinput₁, hsink₁, hfirst⟩ := input_step line hls hinput
      (hsink.imp_left fun h => h prompt List.mem_cons_self)
    obtain ⟨m₂, hothers⟩ := ih hrest hinput₁ <| hsink.imp
      (fun h p hp => h p (List.mem_cons_of_mem prompt hp)) (hsink₁.trans ·)
    refine ⟨m₂, ?_⟩
    rw [inputs, List.mapM_cons, Eval.bind_of_ok hfirst, ← inputs, Eval.bind_of_ok hothers]
    simp only [List.getElem?_tail]
    rw [List.length_cons, List.range_succ_eq_map, List.map_cons, List.map_map,
      List.head?_eq_getElem?]
    rfl

end Primitive

/-! ### Whole texts -/

/-- A content that does not end with a carriage return is read as it is. -/
theorem Line.reading_eq {l : Line} (h : l.content.getLast? ≠ some '\r') :
    l.reading = String.ofList l.content := by
  unfold Line.reading
  rw [List.rdropWhile_eq_self_iff.2]
  intro hcontent hlast
  exact h (by rw [List.getLast?_eq_some_getLast hcontent, eq_of_beq hlast])

/-- **Input is read by lines.**  Every text is made of lines, and whatever they are: of the calls
that read it, or ask for it with or without a prompt, each gives the next line, and those after the
last one give none.  What a call gives is the content of its line without the carriage returns at
its end, which is the content itself if it does not end with one. -/
theorem input_is_read_by_lines (text : String) :
    (∃ ls, Lines text.toList ls) ∧ ∀ ls, Lines text.toList ls →
      (∀ h : Host, h.input = text.toUTF8.data.toList → ∀ n,
        (Host.readLine (h.afterReads n)).1 = .ok (ls[n]?.map Line.reading)) ∧
      (∀ (m : Machine) (line : ℕ) (prompts : List (Option Value)),
        m.host.input = text.toUTF8.data.toList →
          (∀ p ∈ prompts, p = none) ∨ m.host.sink = .accepting →
            ∃ m', Primitive.inputs line prompts m =
              .ok ((List.range prompts.length).map fun i => Primitive.lineValue ls[i]?) m') ∧
      ∀ l ∈ ls, l.content.getLast? ≠ some '\r' → l.reading = String.ofList l.content := by
  refine ⟨exists_lines _, fun ls hls => ⟨fun h hinput n => ?_, ?_, fun _ _ => Line.reading_eq⟩⟩
  · exact Host.readLine_afterReads hls (hinput.trans (Host.encode_toList text).symm) n
  · intro m line prompts hinput hsink
    exact Primitive.inputs_eq line hls (hinput.trans (Host.encode_toList text).symm) hsink

/-- The lines of a text with all three ends. -/
def mixedLines : List Line := [⟨['a'], .returnFeed⟩, ⟨[], .feed⟩, ⟨['b'], .missing⟩]

theorem mixedLines_are_read :
    Lines "a\r\n\nb".toList mixedLines ∧
      (Host.readLine ((Host.ofInput "a\r\n\nb".toUTF8.data.toList).afterReads 2)).1 =
        .ok (some "b") ∧
      (∃ m', Primitive.inputs 1 [none, some (.str "> "), none, none]
        ⟨Heap.empty, Host.ofInput "a\r\n\nb".toUTF8.data.toList, 0, 1⟩ =
          .ok [.str "a", .str "", .str "b", .null] m') ∧
      Line.reading ⟨['a'], .returnFeed⟩ = "a" := by
  have hls : Lines "a\r\n\nb".toList mixedLines :=
    @Lines.returnFeed ['a'] _ _ (by decide)
      (@Lines.feed [] _ _ (by decide) nofun (.last (by decide) (by decide)))
  obtain ⟨hread, hinputs, hexact⟩ := (input_is_read_by_lines "a\r\n\nb").2 mixedLines hls
  refine ⟨hls, hread _ rfl 2, ?_, hexact _ (by simp [mixedLines]) (by decide)⟩
  exact hinputs _ 1 [none, some (.str "> "), none, none] rfl (.inr rfl)

/-- Only one of two carriage returns belongs to what ends the line, but both are lost. -/
theorem returns_at_the_end_are_lost :
    ¬ ∀ (text : String) (ls : List Line), Lines text.toList ls → ∀ n,
      (Host.readLine ((Host.ofInput text.toUTF8.data.toList).afterReads n)).1 =
        .ok (ls[n]?.map fun l => String.ofList l.content) := by
  intro hall
  have hls : Lines "a\r\r\nb".toList [⟨['a', '\r'], .returnFeed⟩, ⟨['b'], .missing⟩] :=
    @Lines.returnFeed ['a', '\r'] _ _ (by decide) (.last (by decide) (by decide))
  have hread := Host.readLine_afterReads
    (h := Host.ofInput "a\r\r\nb".toUTF8.data.toList) hls (Host.encode_toList _).symm 0
  have hsame := (hall _ _ hls 0).symm.trans hread
  revert hsame
  decide

end PairScript
