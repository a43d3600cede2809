/-
  `tokenize` of soln.c and of my_shell.c: the words of a line, copied through the buffer `token` into
  the array `tokens`.

  Neither buffer's end is looked at, so a write behind it ends the model's run; what `malloc` gives is
  taken to be there, with anything in it.  The scan is proved once for both programs, of which only
  soln.c clears the array (`sizeof(tokens)` is the size of a pointer, so one entry of it).

  1. `Holds` says where the scan is: it has put the words `ws` into the array and the piece `w` of
     the next word into the buffer;
  2. `Holds.visit` is one turn of the loop, split by what the character is: another character of
     the word, the separator behind it, or one of several separators in a row;
  3. `Holds.foldlM` is the loop, and `tokenizeFrom_spec` the whole scan: it ends with the words of
     the line and a `NULL` behind them, or with an overflow, and then the line does not fit;
  4. `tokenize_ok_iff` and `tokenize_words` state this for both programs.

  A word of 64 characters is one too long, because its NUL goes into the same 64 bytes
  (`tokenize_overflow`).
-/
import OsCodes.Lib.Bytes
import OsCodes.Lib.Segments
import OsCodes.Shell.Sequence

namespace OsCodes.Shell

open Bytes

/-! ## The code -/

def MAX_INPUT_SIZE : Nat := 1024
def MAX_TOKEN_SIZE : Nat := 64

/-- The entry behind the end of a buffer that a run writes. -/
inductive Overflow
  | token (i : Nat)
  | tokens (i : Nat)
  deriving DecidableEq

/-- The variables of the scan; an entry of `tokens` is `NULL` or a string of its own. -/
structure Tokenizer where
  token : Vector UInt8 MAX_TOKEN_SIZE
  tokenIndex : Nat
  tokens : Vector (Option (List UInt8)) MAX_NUM_TOKENS
  tokenNo : Nat

/-- `token[tokenIndex] = c`. -/
def Tokenizer.setToken (s : Tokenizer) (c : UInt8) : Except Overflow Tokenizer :=
  if s.tokenIndex < MAX_TOKEN_SIZE then
    .ok { s with token := s.token.setIfInBounds s.tokenIndex c }
  else .error (.token s.tokenIndex)

/-- `tokens[tokenNo] = t`. -/
def Tokenizer.setTokens (s : Tokenizer) (t : Option (List UInt8)) : Except Overflow Tokenizer :=
  if s.tokenNo < MAX_NUM_TOKENS then
    .ok { s with tokens := s.tokens.setIfInBounds s.tokenNo t }
  else .error (.tokens s.tokenNo)

/-- What `strcpy` copies. -/
def strcpy (src : Vector UInt8 MAX_TOKEN_SIZE) : List UInt8 := src.toList.takeWhile (· ≠ 0)

/-- A space, a newline or a tab. -/
def isSeparator (readChar : UInt8) : Bool := readChar == 32 || readChar == 10 || readChar == 9

/-- A turn of the loop. -/
def Tokenizer.visit (s : Tokenizer) (readChar : UInt8) : Except Overflow Tokenizer :=
  if isSeparator readChar then do
    let s ← s.setToken 0
    if s.tokenIndex ≠ 0 then do
      -- the string's own buffer is as large as `token`, and the NUL has just been written
      let s ← s.setTokens (some (strcpy s.token))
      return { s with tokenNo := s.tokenNo + 1, tokenIndex := 0 }
    else
      return s
  else do
    let s ← s.setToken readChar
    return { s with tokenIndex := s.tokenIndex + 1 }

/-- The loop over the line, and the `NULL` behind the last token. -/
def tokenizeFrom (s : Tokenizer) (line : CStr) :
    Except Overflow (Vector (Option (List UInt8)) MAX_NUM_TOKENS) := do
  let s ← line.chars.foldlM Tokenizer.visit s
  let s ← s.setTokens none
  return s.tokens

/-- `tokenize` of soln.c, where the buffers hold `token` and `tokens`. -/
def Soln.tokenize (token : Vector UInt8 MAX_TOKEN_SIZE)
    (tokens : Vector (Option (List UInt8)) MAX_NUM_TOKENS) (line : CStr) :
    Except Overflow (Vector (Option (List UInt8)) MAX_NUM_TOKENS) :=
  tokenizeFrom ⟨token, 0, tokens.setIfInBounds 0 none, 0⟩ line

/-- `tokenize` of my_shell.c, which does not set `tokens[0]` to `NULL` first. -/
def MyShell.tokenize (token : Vector UInt8 MAX_TOKEN_SIZE)
    (tokens : Vector (Option (List UInt8)) MAX_NUM_TOKENS) (line : CStr) :
    Except Overflow (Vector (Option (List UInt8)) MAX_NUM_TOKENS) :=
  tokenizeFrom ⟨token, 0, tokens, 0⟩ line

/-- `line[strlen(line)] = '\n'`, the line as `main` passes it. -/
def newline (text : CStr) : CStr :=
  ⟨text.chars ++ [10], fun h => by
    rcases List.mem_append.mp h with h | h
    · exact text.noNul h
    · cases List.mem_singleton.mp h⟩

/-- The words are short and few enough for the buffers. -/
def Fits (ws : List (List UInt8)) : Prop :=
  ws.length < MAX_NUM_TOKENS ∧ ∀ w ∈ ws, w.length < MAX_TOKEN_SIZE

/-! ## A write keeps what goes before -/

theorem concat_prefix_set {α : Type} {w l : List α} (h : w <+: l) (hlt : w.length < l.length)
    (c : α) : w ++ [c] <+: l.set w.length c := by
  obtain ⟨rest, rfl⟩ := h
  cases rest with
  | nil =>
    rw [List.append_nil] at hlt
    exact absurd hlt (Nat.lt_irrefl _)
  | cons b rest =>
    refine ⟨rest, ?_⟩
    rw [List.set_append_right _ _ (Nat.le_refl _), Nat.sub_self, List.set_cons_zero,
      List.append_assoc]
    rfl

section Scan

variable {s : Tokenizer} {done w : List UInt8} {ws : List (List UInt8)} {c : UInt8}

/-- Where the scan is: behind the words `ws` and the piece `w` of the next one. -/
structure Holds (s : Tokenizer) (done w : List UInt8) (ws : List (List UInt8)) : Prop where
  cut : ∀ l, words isSeparator (done ++ l) = ws ++ words isSeparator (w ++ l)
  suffix : w <:+ done
  plain : ∀ x ∈ w, isSeparator x = false
  noNul : (0 : UInt8) ∉ w
  short : ∀ u ∈ ws, u.length < MAX_TOKEN_SIZE
  index : s.tokenIndex = w.length
  token : w <+: s.token.toList
  no : s.tokenNo = ws.length
  tokens : ws.map some <+: s.tokens.toList

theorem Tokenizer.setToken_eq {n : Nat} (hi : s.tokenIndex = n) (hn : n < MAX_TOKEN_SIZE)
    (c : UInt8) : s.setToken c = .ok { s with token := s.token.setIfInBounds n c } := by
  rw [Tokenizer.setToken, hi, if_pos hn]

theorem Tokenizer.setTokens_eq {n : Nat} (hi : s.tokenNo = n) (hn : n < MAX_NUM_TOKENS)
    (t : Option (List UInt8)) :
    s.setTokens t = .ok { s with tokens := s.tokens.setIfInBounds n t } := by
  rw [Tokenizer.setTokens, hi, if_pos hn]

theorem Holds.token_concat (h : Holds s done w ws) (hw : w.length < MAX_TOKEN_SIZE) (c : UInt8) :
    w ++ [c] <+: (s.token.setIfInBounds w.length c).toList := by
  rw [Vector.toList_setIfInBounds]
  refine concat_prefix_set h.token ?_ c
  rw [Vector.length_toList]
  exact hw

theorem Holds.tokens_concat (h : Holds s done w ws) (hws : ws.length < MAX_NUM_TOKENS)
    (t : Option (List UInt8)) :
    ws.map some ++ [t] <+: (s.tokens.setIfInBounds ws.length t).toList := by
  rw [Vector.toList_setIfInBounds]
  have hset := concat_prefix_set h.tokens (by simpa using hws) t
  rwa [List.length_map] at hset

/-- A piece that fills the buffer is the beginning of a word that is too long. -/
theorem Holds.not_fits_of_full (h : Holds s done w ws) (hw : ¬w.length < MAX_TOKEN_SIZE)
    (l : List UInt8) : ¬Fits (words isSeparator (done ++ l)) := by
  intro hfits
  have hne : w ≠ [] := by
    rintro rfl
    exact hw (by decide)
  obtain ⟨u, us, hu⟩ := words_append h.plain hne l
  have hlt := hfits.2 (w ++ u) (by rw [h.cut, hu]; simp)
  rw [List.length_append] at hlt
  omega

/-- A separator ends the piece, which is a word unless it is empty. -/
theorem Holds.cut_separator (h : Holds s done w ws) (hc : isSeparator c = true) (l : List UInt8) :
    words isSeparator (done ++ [c] ++ l) = (ws ++ words isSeparator w) ++ words isSeparator l := by
  rw [List.append_assoc, h.cut, List.singleton_append, words_append_cons w l hc, List.append_assoc]

/-- Other characters are added to the piece. -/
theorem Holds.visit_char (h : Holds s done w ws) (hw : w.length < MAX_TOKEN_SIZE) (h0 : c ≠ 0)
    (hc : isSeparator c = false) :
    ∃ s', s.visit c = .ok s' ∧ Holds s' (done ++ [c]) (w ++ [c]) ws := by
  have hset := Tokenizer.setToken_eq h.index hw c
  refine ⟨_, by rw [Tokenizer.visit, if_neg (by simp [hc]), hset]; rfl, ?_⟩
  constructor
  case cut => exact fun l => by rw [List.append_assoc, h.cut, ← List.append_assoc]
  case suffix =>
    obtain ⟨l, rfl⟩ := h.suffix
    exact ⟨l, (List.append_assoc l w [c]).symm⟩
  case plain => exact forall_mem_concat h.plain hc
  case noNul =>
    intro hx
    rcases List.mem_append.mp hx with hx | hx
    · exact h.noNul hx
    · exact h0 (List.mem_singleton.mp hx).symm
  case short => exact h.short
  case index => rw [List.length_append, h.index]; rfl
  case token => exact h.token_concat hw c
  case no => exact h.no
  case tokens => exact h.tokens

/-- The NUL behind the piece is where `strcpy` stops. -/
theorem strcpy_eq {token : Vector UInt8 MAX_TOKEN_SIZE} (hw : (0 : UInt8) ∉ w)
    (hpre : w ++ [0] <+: token.toList) : strcpy token = w := by
  obtain ⟨rest, hrest⟩ := hpre
  have hall : ∀ x ∈ w, decide (x ≠ 0) = true := fun x hx => by
    rw [decide_eq_true_eq]
    rintro rfl
    exact hw hx
  rw [strcpy, ← hrest, List.append_assoc, List.takeWhile_append_of_pos hall, List.singleton_append,
    List.takeWhile_cons_of_neg (by decide), List.append_nil]

/-- What a separator does behind a word. -/
theorem Tokenizer.visit_separator {s₁ : Tokenizer} (hc : isSeparator c = true)
    (hset : s.setToken 0 = .ok s₁) (hindex : s₁.tokenIndex ≠ 0) :
    s.visit c = do
      let s ← s₁.setTokens (some (strcpy s₁.token))
      return { s with tokenNo := s.tokenNo + 1, tokenIndex := 0 } := by
  rw [Tokenizer.visit, if_pos hc, hset]
  exact if_pos hindex

/-- A separator where no word has begun changes nothing but the buffer. -/
theorem Holds.visit_blank (h : Holds s done [] ws) (hc : isSeparator c = true) :
    ∃ s', s.visit c = .ok s' ∧ Holds s' (done ++ [c]) [] ws := by
  have hset := Tokenizer.setToken_eq h.index (by decide) 0
  refine ⟨{ s with token := s.token.setIfInBounds 0 0 }, ?_, ?_⟩
  · rw [Tokenizer.visit, if_pos hc, hset]
    exact if_neg (not_not_intro h.index)
  · have hcut := h.cut_separator hc
    rw [words_of_forall h.plain, if_pos rfl, List.append_nil] at hcut
    exact ⟨hcut, List.nil_suffix, h.plain, h.noNul, h.short, h.index, List.nil_prefix, h.no, h.tokens⟩

/-- A separator behind a word copies it into the array. -/
theorem Holds.visit_word (h : Holds s done w ws) (hc : isSeparator c = true) (hne : w ≠ [])
    (hw : w.length < MAX_TOKEN_SIZE) (hws : ws.length < MAX_NUM_TOKENS) :
    ∃ s', s.visit c = .ok s' ∧ Holds s' (done ++ [c]) [] (ws ++ [w]) := by
  have hset := Tokenizer.setToken_eq h.index hw 0
  refine ⟨{ s with token := s.token.setIfInBounds w.length 0
                   tokens := s.tokens.setIfInBounds ws.length (some w)
                   tokenNo := s.tokenNo + 1, tokenIndex := 0 }, ?_, ?_⟩
  · have hindex : s.tokenIndex ≠ 0 := by
      rw [h.index]
      exact fun h0 => hne (List.eq_nil_of_length_eq_zero h0)
    rw [Tokenizer.visit_separator hc hset hindex, strcpy_eq h.noNul (h.token_concat hw 0)]
    rw [@Tokenizer.setTokens_eq { s with token := s.token.setIfInBounds w.length 0 } _ h.no hws]
    rfl
  · have hcut := h.cut_separator hc
    rw [words_of_forall h.plain, if_neg hne] at hcut
    constructor
    case cut => exact hcut
    case suffix => exact List.nil_suffix
    case plain => exact fun x hx => by cases hx
    case noNul => exact List.not_mem_nil
    case short => exact forall_mem_concat h.short hw
    case index => rfl
    case token => exact List.nil_prefix
    case no => rw [List.length_append, h.no]; rfl
    case tokens => rw [List.map_append]; exact h.tokens_concat hws (some w)

/-- Behind a separator no word has begun. -/
theorem Holds.piece_eq_nil (h : Holds s (done ++ [c]) w ws) (hc : isSeparator c = true) : w = [] := by
  rcases List.suffix_concat_iff.mp h.suffix with hw | ⟨l, rfl, -⟩
  · exact hw
  · have hplain := h.plain c (List.mem_append_right l List.mem_cons_self)
    rw [hc] at hplain
    cases hplain

/-- A turn goes on, or overflows a buffer on a line that does not fit whatever follows. -/
theorem Holds.visit (h : Holds s done w ws) (h0 : c ≠ 0) :
    (∃ s' w' ws', s.visit c = .ok s' ∧ Holds s' (done ++ [c]) w' ws') ∨
    (∃ o, s.visit c = .error o) ∧ ∀ l, ¬Fits (words isSeparator (done ++ c :: l)) := by
  by_cases hw : w.length < MAX_TOKEN_SIZE
  case neg =>
    -- either branch writes to `token` first
    refine .inr ⟨⟨.token s.tokenIndex, ?_⟩, fun l => h.not_fits_of_full hw (c :: l)⟩
    have hset : ∀ c, s.setToken c = .error (.token s.tokenIndex) := fun c => by
      rw [Tokenizer.setToken, h.index, if_neg hw]
    rw [Tokenizer.visit, hset, hset]
    exact ite_self _
  cases hc : isSeparator c with
  | false =>
    obtain ⟨s', hs, h'⟩ := h.visit_char hw h0 hc
    exact .inl ⟨s', _, _, hs, h'⟩
  | true =>
    by_cases hne : w = []
    · subst hne
      obtain ⟨s', hs, h'⟩ := h.visit_blank hc
      exact .inl ⟨s', _, _, hs, h'⟩
    by_cases hws : ws.length < MAX_NUM_TOKENS
    · obtain ⟨s', hs, h'⟩ := h.visit_word hc hne hw hws
      exact .inl ⟨s', _, _, hs, h'⟩
    · -- `ws` fills the array, and `w` is a word more
      refine .inr ⟨⟨.tokens s.tokenNo, ?_⟩, fun l hfits => ?_⟩
      · have hindex : s.tokenIndex ≠ 0 := by
          rw [h.index]
          exact fun h0 => hne (List.eq_nil_of_length_eq_zero h0)
        rw [Tokenizer.visit_separator hc (Tokenizer.setToken_eq h.index hw 0) hindex,
          Tokenizer.setTokens, if_neg (by rw [h.no]; exact hws)]
        rfl
      · have hlt := hfits.1
        rw [List.append_cons, h.cut_separator hc, List.length_append, List.length_append] at hlt
        omega

/-- The loop, on any further characters. -/
theorem Holds.foldlM (h : Holds s done w ws) {l : List UInt8} (h0 : (0 : UInt8) ∉ l) :
    (∃ s' w' ws', l.foldlM Tokenizer.visit s = .ok s' ∧ Holds s' (done ++ l) w' ws') ∨
    (∃ o, l.foldlM Tokenizer.visit s = .error o) ∧
      ∀ l', ¬Fits (words isSeparator (done ++ l ++ l')) := by
  induction l generalizing s done w ws with
  | nil =>
    rw [List.append_nil]
    exact .inl ⟨s, w, ws, rfl, h⟩
  | cons c l ih =>
    rw [List.mem_cons, not_or] at h0
    rw [List.foldlM_cons, List.append_cons]
    rcases h.visit (Ne.symm h0.1) with ⟨s₁, w₁, ws₁, hs, h₁⟩ | ⟨⟨o, ho⟩, hno⟩
    · rw [hs]
      exact ih h₁ h0.2
    · rw [ho]
      refine .inr ⟨⟨o, rfl⟩, fun l' => ?_⟩
      rw [List.append_assoc, List.append_assoc]
      exact hno (l ++ l')

end Scan

/-! ## A whole line -/

section Line

variable (token : Vector UInt8 MAX_TOKEN_SIZE) (tokens : Vector (Option (List UInt8)) MAX_NUM_TOKENS)
  (text : CStr)

/-- **What the scan does**, whatever the buffers hold: the words and a `NULL` behind them, or an
    overflow on a line that does not fit. -/
theorem tokenizeFrom_spec :
    (Fits (words isSeparator (newline text).chars) ∧
      ∃ r, tokenizeFrom ⟨token, 0, tokens, 0⟩ (newline text) = .ok r ∧
        (words isSeparator (newline text).chars).map some ++ [none] <+: r.toList) ∨
    (¬Fits (words isSeparator (newline text).chars) ∧
      ∃ o, tokenizeFrom ⟨token, 0, tokens, 0⟩ (newline text) = .error o) := by
  have hstart : Holds ⟨token, 0, tokens, 0⟩ [] [] [] :=
    { cut := fun l => rfl
      suffix := List.nil_suffix
      plain := fun x hx => by cases hx
      noNul := List.not_mem_nil
      short := fun u hu => by cases hu
      index := rfl
      token := List.nil_prefix
      no := rfl
      tokens := List.nil_prefix }
  obtain ⟨s, w, ws, hs, h⟩ | ⟨⟨o, ho⟩, hno⟩ := hstart.foldlM (newline text).noNul
  case inr =>
    have hnot := hno []
    rw [List.append_nil] at hnot
    rw [tokenizeFrom, ho]
    exact .inr ⟨hnot, o, rfl⟩
  have hlast : Holds s (text.chars ++ [10]) w ws := h
  obtain rfl := hlast.piece_eq_nil (by decide)
  have hcut := h.cut []
  rw [List.append_nil, List.append_nil, List.nil_append, words_nil, List.append_nil] at hcut
  rw [hcut, tokenizeFrom, hs]
  -- all words are in the array, and the `NULL` is the last thing written
  by_cases hws : ws.length < MAX_NUM_TOKENS
  · refine .inl ⟨⟨hws, h.short⟩, _, ?_, h.tokens_concat hws none⟩
    show s.setTokens none >>= _ = _
    rw [Tokenizer.setTokens_eq h.no hws]
    rfl
  · refine .inr ⟨fun hfits => hws hfits.1, .tokens s.tokenNo, ?_⟩
    show s.setTokens none >>= _ = _
    rw [Tokenizer.setTokens, h.no, if_neg hws]
    rfl

/-- **Exactly which lines stay in the buffers**, in both programs. -/
theorem tokenize_ok_iff :
    ((∃ r, Soln.tokenize token tokens (newline text) = .ok r) ↔
      Fits (words isSeparator (newline text).chars)) ∧
    ((∃ r, MyShell.tokenize token tokens (newline text) = .ok r) ↔
      Fits (words isSeparator (newline text).chars)) := by
  have hiff : ∀ tokens, (∃ r, tokenizeFrom ⟨token, 0, tokens, 0⟩ (newline text) = .ok r) ↔
      Fits (words isSeparator (newline text).chars) := fun tokens => by
    rcases tokenizeFrom_spec token tokens text with ⟨hfits, r, hr, -⟩ | ⟨hfits, o, ho⟩
    · exact ⟨fun _ => hfits, fun _ => ⟨r, hr⟩⟩
    · refine ⟨fun ⟨r, hr⟩ => ?_, fun h => absurd h hfits⟩
      rw [ho] at hr
      cases hr
  exact ⟨hiff _, hiff _⟩

/-- **What `tokenize` returns** for a line that fits, in both programs. -/
theorem tokenize_words (hfew : (words isSeparator (newline text).chars).length ≤ 63)
    (hshort : ∀ w ∈ words isSeparator (newline text).chars, w.length ≤ 63) :
    (∃ r, Soln.tokenize token tokens (newline text) = .ok r ∧
      (words isSeparator (newline text).chars).map some ++ [none] <+: r.toList) ∧
    (∃ r, MyShell.tokenize token tokens (newline text) = .ok r ∧
      (words isSeparator (newline text).chars).map some ++ [none] <+: r.toList) ∧
    [] ∉ words isSeparator (newline text).chars := by
  have hfits : Fits (words isSeparator (newline text).chars) :=
    ⟨Nat.lt_succ_of_le hfew, fun w hw => Nat.lt_succ_of_le (hshort w hw)⟩
  have hrun : ∀ tokens, ∃ r, tokenizeFrom ⟨token, 0, tokens, 0⟩ (newline text) = .ok r ∧
      (words isSeparator (newline text).chars).map some ++ [none] <+: r.toList := fun tokens => by
    rcases tokenizeFrom_spec token tokens text with ⟨-, r, hr, hpre⟩ | ⟨hno, -⟩
    · exact ⟨r, hr, hpre⟩
    · exact absurd hfits hno
  exact ⟨hrun _, hrun _, nil_notMem_words⟩

end Line

/-- The line `ls -l`. -/
theorem tokenize_words_ls :
    (∃ r, Soln.tokenize (Vector.replicate _ 0) (Vector.replicate _ none)
        (newline ⟨[108, 115, 32, 45, 108], by decide⟩) = .ok r ∧
      [some [108, 115], some [45, 108], none] <+: r.toList) := by
  have hwords : words isSeparator (newline ⟨[108, 115, 32, 45, 108], by decide⟩).chars =
      [[108, 115], [45, 108]] := by decide
  have hls := tokenize_words (Vector.replicate _ 0) (Vector.replicate _ none)
    ⟨[108, 115, 32, 45, 108], by decide⟩ (by rw [hwords]; decide) (by rw [hwords]; decide)
  rw [hwords] at hls
  exact hls.1

/-- A word of 64 characters has its NUL written behind the buffer. -/
theorem tokenize_overflow : ¬∀ token tokens (text : CStr), text.len ≤ MAX_INPUT_SIZE - 2 →
    (∃ r, Soln.tokenize token tokens (newline text) = .ok r) ∧
    ∃ r, MyShell.tokenize token tokens (newline text) = .ok r := by
  intro hall
  let text : CStr :=
    ⟨List.replicate 64 97, fun h => absurd (List.eq_of_mem_replicate h) (by decide)⟩
  obtain ⟨⟨r, hr⟩, -⟩ := hall (Vector.replicate _ 0) (Vector.replicate _ none) text (by decide)
  have hplain : ∀ x ∈ List.replicate 64 97, isSeparator x = false := fun x hx => by
    rw [List.eq_of_mem_replicate hx]
    decide
  have hwords : words isSeparator (newline text).chars = [List.replicate 64 97] := by
    rw [newline, words_concat _ (by decide), words_of_forall hplain, if_neg (by decide)]
  rcases tokenizeFrom_spec (Vector.replicate _ 0)
    ((Vector.replicate MAX_NUM_TOKENS none).setIfInBounds 0 none) text with ⟨hfits, -⟩ | ⟨-, o, ho⟩
  · rw [hwords] at hfits
    exact absurd (hfits.2 _ List.mem_cons_self) (by decide)
  · rw [Soln.tokenize, ho] at hr
    cases hr

end OsCodes.Shell
