import PluginShading.Proofs.Shading.Opening
import PluginShading.Proofs.Source.Division
import PluginShading.Proofs.Source.Imports

/-!
Fragments of a file divided into tokens again.

A pass divides the header and the declarations of a file once more, each on its own and from the beginning
of code. `fragments_reread_iff` says of which files this gives the tokens that the source has there: those
whose header opens code, whose pieces do not look as if they did, and whose cuts leave nothing open.
-/
namespace PluginShading.Source

theorem inlineText_closeTag {more : List Char} (h : (openTag (closeTag more).2).isSome = true) :
    inlineText ('?' :: '>' :: more) = closeTag more := by
  have hstop : ∀ {cs : List Char}, (openTag cs).isSome = true → inlineText cs = ([], cs) := by
    intro cs hcs
    cases cs with
    | nil => cases hcs
    | cons c rest => rw [inlineText, if_pos hcs]
  have hskip : ∀ {c : Char} {rest : List Char}, c ≠ '<' →
      inlineText (c :: rest) = (c :: (inlineText rest).1, (inlineText rest).2) := by
    intro c rest hc
    rw [inlineText, if_neg (by rw [Shading.isSome_openTag_of_ne hc]; simp)]
  rw [hskip (by decide), hskip (by decide)]
  unfold closeTag lineEnd at h ⊢
  split at h
  · rename_i cut hcut
    split at hcut
    · cases hcut
      rw [hskip (by decide), hskip (by decide), hstop h]
    · cases hcut
      rw [hskip (by decide), hstop h]
    · cases hcut
  · rw [hstop h]

namespace Machine

variable {m n m' : Machine} {t : Token} {ts : List Token}

theorem Resembles.stack_eq_nil_iff (h : m.Resembles n) : n.stack = [] ↔ m.stack = [] := by
  rw [← List.map_eq_nil_iff, h.stack, List.map_eq_nil_iff]

/-- In code the mark of a tag is no token. -/
theorem Plain.next_tag {rest : List Char} (hm : m.Plain) (hrest : m.rest = '<' :: '?' :: rest)
    (h : m.next = .ok (some (t, m'))) : t.text = ['<'] := by
  rw [hm.next_eq hrest] at h
  obtain ⟨r, hr, rfl, -⟩ := readCode_token h
  cases hr
  rfl

/-- Code ends with the closing tag that is read. -/
theorem Plain.closes (hm : m.Plain) (h : m.next = .ok (some (t, m'))) (ho : m'.outside = true) :
    ∃ more, m.rest = '?' :: '>' :: more ∧ m'.rest = (closeTag more).2 := by
  obtain ⟨c, rest, hrest⟩ := List.exists_cons_of_ne_nil (show m.rest ≠ [] by
    rw [← (next_reads h).text]
    simp [(next_reads h).ne_nil])
  rw [hm.next_eq hrest] at h
  unfold Machine.readCode at h
  split at h
  · cases h
  · rename_i r hr
    cases h
    obtain ⟨rfl, more, rfl, -, hafter⟩ := eq_of_closesCode hr (by simpa [hm.outside] using ho)
    exact ⟨more, hrest, hafter⟩

theorem Plain.next_closing {more : List Char} (hm : m.Plain) (hrest : m.rest = '?' :: '>' :: more) :
    ∃ after, m.next = .ok (some (⟨.other, (closeTag more).1⟩, after)) ∧ after.rest = (closeTag more).2 ∧
      after.stack = [] ∧ after.outside = true := by
  rw [hm.next_eq hrest]
  refine ⟨_, rfl, rfl, ?_, Bool.or_true _⟩
  simp [Machine.pass, Reading.plain, hm.stack]

/-- Outside of code a tag is read, or the text up to one. -/
theorem next_outside_cases (hs : m.stack = []) (ho : m.outside = true) (h : m.next = .ok (some (t, m'))) :
    m'.stack = [] ∧ ((t.kind = .openTag ∧ ∃ rest, t.text = '<' :: '?' :: rest) ∨
      openTag m.rest = none ∧ t = ⟨.other, (inlineText m.rest).1⟩ ∧ m'.rest = (inlineText m.rest).2 ∧
        m'.outside = true) := by
  have hne : m.rest ≠ [] := by
    rw [← (next_reads h).text]
    simp [(next_reads h).ne_nil]
  rw [next_of_outside hs ho hne, Except.ok.injEq, Option.some.injEq] at h
  unfold readOutside at h
  split at h
  · rename_i cut hcut
    cases h
    refine ⟨by simp [Machine.pass, hs], .inl ⟨rfl, ?_⟩⟩
    obtain ⟨more, hmore⟩ := openTag_shape hcut
    exact ⟨more, hmore⟩
  · cases h
    exact ⟨by simp [Machine.pass, hs], .inr ⟨‹_›, rfl, rfl, ho⟩⟩

/-- Only outside of code a tag is read. -/
theorem outside_of_openTag (h : m.next = .ok (some (t, m'))) (hk : t.kind = .openTag) :
    m.stack = [] ∧ m.outside = true ∧ (openTag m.rest).isSome = true := by
  cases next_move h with
  | outside hs ho =>
    unfold readOutside at hk
    split at hk
    · rename_i hcut
      exact ⟨hs, ho, by rw [hcut]; rfl⟩
    · cases hk
  | @code c rest r _ _ _ hr =>
    rcases readCode_cases hr with ⟨-, rfl⟩ | ⟨-, -, rfl⟩ | htoken | hkind
    · rcases readWord_kind m.last (c :: rest) with hkind | ⟨word, hkind⟩ <;> simp [hk] at hkind
    · cases hk
    · rw [htoken] at hk
      cases hk
    · simp [hk] at hkind
  | closing => cases hk
  | opening => cases hk
  | text => cases hk

/-- Text outside of code is followed by a tag. -/
theorem Steps.tag_behind {source : List Char} (h : Steps m ts m') (hs : m.stack = []) (ho : m.outside = true)
    (hrest : m.rest = (inlineText source).2) (hne : ts ≠ []) :
    ∃ tag more, ts = tag :: more ∧ tag.kind = .openTag := by
  cases h with
  | refl => exact absurd rfl hne
  | @next _ _ _ tag more hn _ =>
    refine ⟨tag, more, rfl, ?_⟩
    rcases (next_outside_cases hs ho hn).2 with ⟨hk, -⟩ | ⟨hnone, -⟩
    · exact hk
    · rcases inlineText_rest source with hnil | hsome
      · have htext := (next_reads hn).text
        rw [hrest, hnil, List.append_eq_nil_iff] at htext
        exact absurd htext.1 (next_reads hn).ne_nil
      · rw [← hrest, hnone] at hsome
        cases hsome

/-- Outside of code with nothing open, and behind the same token, machines read alike. -/
theorem resembles_of_outside (hm : m.stack = []) (hn : n.stack = []) (hom : m.outside = true)
    (hon : n.outside = true) (hlast : n.last = m.last) : m.Resembles n :=
  ⟨hon.trans hom.symm, by rw [hm, hn], by rw [hlast]⟩

end Machine

end PluginShading.Source

namespace PluginShading.Shading

open Source

variable {source : List Char} {m m' : Machine} {ts : List Token}

/-! ### One fragment -/

/-- The text closes code, and opens it again right behind that. -/
def reopensCode : List Char → Bool
  | '?' :: '>' :: more => (openTag (closeTag more).2).isSome
  | _ => false

theorem eq_of_reopensCode {code : List Char} (h : reopensCode code = true) :
    ∃ more, code = '?' :: '>' :: more ∧ (openTag (closeTag more).2).isSome = true := by
  unfold reopensCode at h
  split at h
  · exact ⟨_, rfl, h⟩
  · cases h

/-- Read from a machine like the one in its place, a fragment is divided as it is there exactly if it leaves
nothing open. -/
theorem reread_iff_of_resembles (h : Machine.Steps m ts m') (hm : m.Sound)
    (hstop : ∃ t, ts.getLast? = some t ∧ isStopToken t = true)
    (hlike : m.Resembles (fragmentStart (Source.text ts))) :
    fragmentTokens (Source.text ts) = .ok ts ↔ m'.stack = [] := by
  refine ⟨fun hts => (fragmentTokens_cut h hm hstop hlike hts).2.stack, fun hstack => ?_⟩
  obtain ⟨n, hn, hrest, hlike'⟩ := h.cut hm hstop hlike (fragmentStart_rest _)
  exact fragmentTokens_eq_ok_iff.2 ⟨n, hn, hrest, hlike'.stack_eq_nil_iff.2 hstack⟩

/-- **A piece of code is divided as it is in its place exactly if it does not look as if it opened code and
leaves nothing open.** -/
theorem piece_reread_iff (h : Machine.Steps m ts m') (hm : m.Plain)
    (hstop : ∃ t, ts.getLast? = some t ∧ isStopToken t = true) :
    fragmentTokens (Source.text ts) = .ok ts ↔ opensCode (Source.text ts) = false ∧ m'.stack = [] := by
  cases ho : opensCode (Source.text ts) with
  | false =>
    rw [eq_self, true_and]
    refine reread_iff_of_resembles h hm.sound hstop ?_
    rw [fragmentStart_of_not_opensCode ho]
    exact hm.resembles (plain_inCode _)
  | true =>
    refine iff_of_false (fun hts => ?_) nofun
    rw [fragmentTokens_of_opensCode ho] at hts
    obtain ⟨n, hn, -⟩ := tokenize_eq_ok_iff.1 hts
    obtain ⟨p, q, s, rest, htext, -⟩ := eq_of_opensCode ho
    have hrest := h.text
    rw [htext] at hrest
    cases hn with
    | refl =>
      cases htext
    | next hfirst _ =>
      cases h with
      | next hnext _ =>
        have hopens := (opensCode_first hfirst ho).1
        rw [hm.next_tag hrest.symm hnext] at hopens
        cases hopens

/-- The first token of a source that does not open code is a tag or text in front of one, and no stop. -/
theorem exists_stop_behind {t : Token} {us : List Token}
    (h : (Machine.start source).next = .ok (some (t, m)))
    (hstop : ∃ s, (t :: us).getLast? = some s ∧ isStopToken s = true) :
    ∃ s, us.getLast? = some s ∧ isStopToken s = true := by
  have hkind : t.kind ≠ .punctuation := by
    rcases (Machine.next_outside_cases rfl rfl h).2 with ⟨hk, -⟩ | ⟨-, rfl, -⟩
    · simp [hk]
    · simp
  obtain ⟨s, hs, hmark⟩ := hstop
  cases us with
  | nil =>
    obtain rfl : t = s := by simpa using hs
    exact absurd (isStopToken_iff.1 hmark).1 hkind
  | cons u more => exact ⟨s, by simpa using hs, hmark⟩

/-- Read as code, a header gives the tokens it has outside of code only by closing code first. -/
theorem reopensCode_of_reread (h : Machine.Steps (Machine.start source) ts m)
    (hstop : ∃ t, ts.getLast? = some t ∧ isStopToken t = true)
    (hopens : opensCode (Source.text ts) = false) (hts : fragmentTokens (Source.text ts) = .ok ts) :
    reopensCode (Source.text ts) = true ∧ m.stack = [] := by
  have hcode := plain_inCode (Source.text ts)
  obtain ⟨n, hn, hrest, hstack⟩ := fragmentTokens_eq_ok_iff.1 hts
  rw [fragmentStart_of_not_opensCode hopens] at hn
  cases h with
  | refl => simp at hstop
  | @next _ second _ t us hfirst hsecond =>
    have hus := exists_stop_behind hfirst hstop
    obtain ⟨hnothing, hcases⟩ := Machine.next_outside_cases rfl rfl hfirst
    cases hn with
    | @next _ next _ _ _ hread hmore =>
      rcases hcases with ⟨-, tag, htag⟩ | ⟨-, ht, hinline, houtside⟩
      · have hmark : (inCode (Source.text (t :: us))).rest = '<' :: '?' :: (tag ++ Source.text us) := by
          simp [inCode, htag]
        have htext := hcode.next_tag hmark hread
        rw [htag] at htext
        cases htext
      · have hlast : next.last = second.last := by
          rw [Machine.next_last hread, Machine.next_last hfirst, ht]
          rfl
        obtain ⟨tag, more, htag, hk⟩ := hsecond.tag_behind hnothing houtside hinline (by
          rintro rfl
          simp at hus)
        obtain ⟨hempty, hout, hopen⟩ : next.stack = [] ∧ next.outside = true ∧
            (openTag next.rest).isSome = true := by
          rw [htag] at hmore
          cases hmore with
          | next hn _ => exact Machine.outside_of_openTag hn hk
        obtain ⟨l, hl, -, hlike⟩ := hsecond.cut ((Machine.sound_start source).next hfirst) hus
          (Machine.resembles_of_outside hnothing hempty houtside hout hlast)
          (by rw [← hmore.text, hrest, List.append_nil])
        obtain rfl := hmore.unique hl
        obtain ⟨closed, htext, hafter⟩ := hcode.closes hread hout
        refine ⟨?_, hlike.stack_eq_nil_iff.1 hstack⟩
        rw [show Source.text (t :: us) = '?' :: '>' :: closed from htext, reopensCode, ← hafter]
        exact hopen

/-- A header that closes code first, and opens it again, has the same tokens read as code. -/
theorem reread_of_reopensCode (h : Machine.Steps (Machine.start source) ts m)
    (hstop : ∃ t, ts.getLast? = some t ∧ isStopToken t = true)
    (hopens : opensCode (Source.text ts) = false) (hreopens : reopensCode (Source.text ts) = true)
    (hstack : m.stack = []) : fragmentTokens (Source.text ts) = .ok ts := by
  have hcode := plain_inCode (Source.text ts)
  obtain ⟨more, htext, hopen⟩ := eq_of_reopensCode hreopens
  have hlike : (Machine.start source).Resembles (Machine.start (Source.text ts)) := ⟨rfl, rfl, rfl⟩
  obtain ⟨n, hn, hrest, hend⟩ := h.cut (Machine.sound_start source) hstop hlike rfl
  have hempty := hend.stack_eq_nil_iff.2 hstack
  obtain ⟨next, hread, hafter, hnothing', houtside'⟩ := hcode.next_closing htext
  cases hn with
  | refl => simp at hstop
  | @next _ second _ t us hfirst hsecond =>
    have hstart : (Machine.start (Source.text (t :: us))).rest = '?' :: '>' :: more := htext
    have hus := exists_stop_behind hfirst hstop
    obtain ⟨hnothing, hcases⟩ := Machine.next_outside_cases rfl rfl hfirst
    rw [hstart, inlineText_closeTag hopen] at hcases
    rcases hcases with ⟨-, tag, htag⟩ | ⟨-, rfl, hinline, houtside⟩
    · have hreads := (Machine.next_reads hfirst).text
      rw [hstart, htag] at hreads
      cases hreads
    · have hlast : next.last = second.last := by
        rw [Machine.next_last hread, Machine.next_last hfirst]
        rfl
      obtain ⟨l, hl, hnil, hlike⟩ := hsecond.cut ((Machine.sound_start _).next hfirst) hus
        (Machine.resembles_of_outside hnothing hnothing' houtside houtside' hlast)
        (by rw [hafter, ← hinline, ← hsecond.text, hrest, List.append_nil])
      rw [fragmentTokens_eq_ok_iff, fragmentStart_of_not_opensCode hopens]
      exact ⟨l, .next hread hl, hnil, hlike.stack_eq_nil_iff.2 hempty⟩

/-- Read as code, a header that begins outside of code is divided as it is in its source exactly if it
closes code first. -/
theorem closing_reread_iff (h : Machine.Steps (Machine.start source) ts m)
    (hstop : ∃ t, ts.getLast? = some t ∧ isStopToken t = true)
    (hopens : opensCode (Source.text ts) = false) :
    fragmentTokens (Source.text ts) = .ok ts ↔ reopensCode (Source.text ts) = true ∧ m.stack = [] :=
  ⟨reopensCode_of_reread h hstop hopens, fun hts => reread_of_reopensCode h hstop hopens hts.1 hts.2⟩

/-- **A header is divided as it is in its source exactly if it opens code, or closes code and opens it again,
and leaves nothing open.** -/
theorem header_reread_iff (h : Machine.Steps (Machine.start source) ts m)
    (hstop : ∃ t, ts.getLast? = some t ∧ isStopToken t = true) :
    fragmentTokens (Source.text ts) = .ok ts ↔
      (opensCode (Source.text ts) = true ∨ reopensCode (Source.text ts) = true) ∧ m.stack = [] := by
  cases ho : opensCode (Source.text ts) with
  | true =>
    simp only [true_or, true_and]
    refine reread_iff_of_resembles h (Machine.sound_start source) hstop ?_
    rw [fragmentStart_of_opensCode ho]
    exact ⟨rfl, rfl, rfl⟩
  | false =>
    simp only [Bool.false_eq_true, false_or]
    exact closing_reread_iff h hstop ho

/-! ### The pieces behind a header -/

/-- Behind these tokens, read from `m`, no literal and no interpolation is open. -/
def NothingOpen (m : Machine) (ts : List Token) : Prop := ∃ k, Machine.Steps m ts k ∧ k.stack = []

theorem nothingOpen_iff (h : Machine.Steps m ts m') : NothingOpen m ts ↔ m'.stack = [] := by
  refine ⟨?_, fun hstack => ⟨m', h, hstack⟩⟩
  rintro ⟨k, hk, hstack⟩
  rwa [h.unique hk]

theorem nothingOpen_append_iff (h : Machine.Steps m ts m') {us : List Token} :
    NothingOpen m (ts ++ us) ↔ NothingOpen m' us := by
  constructor
  · rintro ⟨k, hk, hstack⟩
    obtain ⟨n, hn, hus⟩ := hk.split
    exact ⟨k, h.unique hn ▸ hus, hstack⟩
  · rintro ⟨k, hk, hstack⟩
    exact ⟨k, h.append hk, hstack⟩

/-- **Behind a header that leaves nothing open, the pieces are divided as they are in the source exactly if
none looks as if it opened code and none leaves anything open.** -/
theorem pieces_reread_iff {cuts : List Cut} {tail : List Token}
    (h : Machine.Steps m (cuts.flatMap Cut.tokens ++ tail) m') (hm : m.Plain)
    (hgaps : ∀ c ∈ cuts, ∀ t ∈ c.gap, t.significant = false)
    (hstops : ∀ c ∈ cuts, ∃ t, c.piece.getLast? = some t ∧ isStopToken t = true) :
    (∀ c ∈ cuts, fragmentTokens (Source.text c.piece) = .ok c.piece) ↔
      (∀ c ∈ cuts, opensCode (Source.text c.piece) = false) ∧
        ∀ (i : Nat) (c : Cut), cuts[i]? = some c → NothingOpen m (leading cuts i ++ c.piece) := by
  induction cuts generalizing m with
  | nil => simp
  | cons c rest ih =>
    rw [List.flatMap_cons, Cut.tokens, List.append_assoc, List.append_assoc] at h
    obtain ⟨k, hgap, h⟩ := h.split
    obtain ⟨n, hpiece, hrest⟩ := h.split
    have hplain := hgap.plain_of_insignificant hm (hgaps c List.mem_cons_self)
    have hstop := hstops c List.mem_cons_self
    have hfirst := piece_reread_iff hpiece hplain hstop
    have hthrough := hgap.append hpiece
    have hrest' := fun hempty => ih hrest (hpiece.plain hplain.sound hstop hempty)
      (fun d hd => hgaps d (List.mem_cons_of_mem c hd)) (fun d hd => hstops d (List.mem_cons_of_mem c hd))
    rw [List.forall_mem_cons, List.forall_mem_cons, hfirst]
    constructor
    · rintro ⟨⟨hfree, hempty⟩, hall⟩
      obtain ⟨hfrees, hopen⟩ := (hrest' hempty).1 hall
      refine ⟨⟨hfree, hfrees⟩, fun i d hd => ?_⟩
      cases i with
      | zero =>
        obtain rfl := Option.some.inj hd
        exact (nothingOpen_iff hthrough).2 hempty
      | succ i =>
        rw [leading, Cut.tokens, List.append_assoc]
        exact (nothingOpen_append_iff hthrough).2 (hopen i d hd)
    · rintro ⟨⟨hfree, hfrees⟩, hopen⟩
      have hempty := (nothingOpen_iff hthrough).1 (hopen 0 c rfl)
      refine ⟨⟨hfree, hempty⟩, (hrest' hempty).2 ⟨hfrees, fun i d hd => ?_⟩⟩
      have hbehind := hopen (i + 1) d hd
      rw [leading, Cut.tokens, List.append_assoc] at hbehind
      exact (nothingOpen_append_iff hthrough).1 hbehind

/-! ### Files -/

/-- The fragments of the file are divided into the tokens that stand there in the source. -/
def Rereads (source : List Char) (f : File) : Prop :=
  ∃ l : Source.Layout, l.Fits source f ∧ fragmentTokens f.header = .ok l.header ∧
    List.Forall₂ (fun d c => fragmentTokens d.code = .ok c.piece) f.declarations l.cuts

/-- The header opens code, at once or behind a closing tag; no declaration looks as if it did; and nothing
is open where the header or a declaration ends. -/
def Separable (source : List Char) (f : File) : Prop :=
  ∃ l : Source.Layout, l.Fits source f ∧ (opensCode f.header = true ∨ reopensCode f.header = true) ∧
    (∀ d ∈ f.declarations, opensCode d.code = false) ∧ NothingOpen (Machine.start source) l.header ∧
      ∀ (i : Nat) (c : Cut), l.cuts[i]? = some c → NothingOpen (Machine.start source) (l.before i ++ c.piece)

/-- What holds of the declarations' code holds of the pieces' text. -/
theorem forall₂_codes_iff {ds : List Declaration} {cuts : List Cut} {P : List Char → Cut → Prop}
    (h : ds.map Declaration.code = cuts.map fun c => Source.text c.piece) :
    List.Forall₂ (fun d c => P d.code c) ds cuts ↔ ∀ c ∈ cuts, P (Source.text c.piece) c := by
  rw [← List.forall₂_map_left_iff (f := Declaration.code), h, List.forall₂_map_left_iff, List.forall₂_same]

/-- **A file's fragments are divided as they are in its source exactly if the source is cut where nothing is
open, from a header that opens code.** -/
theorem rereads_iff_separable {path : Path} {f : File} (h : split path source = .ok f) :
    Rereads source f ↔ Separable source f := by
  obtain ⟨found, statement, l, hparts⟩ := exists_parts h
  have hfits := hparts.fits
  obtain ⟨m, hm, -⟩ := tokenize_eq_ok_iff.1 hfits.tokens
  have hmarks := hm.forall_tokens (P := isMarkToken) fun _ _ _ => Machine.next_isMarkToken
  obtain ⟨k, hheader, hcuts⟩ := hm.split
  have hstop : ∃ t, l.header.getLast? = some t ∧ isStopToken t = true := by
    obtain ⟨front, mark, hfront, hmark⟩ := hparts.exists_header_mark
    have hmark : mark.isPunctuation [';'] = true := hmark
    exact ⟨mark, by simp [hfront], by simp [isStopToken, hmark]⟩
  have hstops : ∀ c ∈ l.cuts, ∃ t, c.piece.getLast? = some t ∧ isStopToken t = true := by
    intro c hc
    obtain ⟨first, rest, cut, hsuffix, hnext, hpiece⟩ := hparts.pieces c hc
    obtain ⟨t, ht, hclose⟩ := getLast?_nextPiece (fun t ht => hmarks t (hsuffix.subset ht)) hnext
    exact ⟨t, hpiece ▸ ht, by simp [isStopToken, hclose]⟩
  have hfree : (∀ d ∈ f.declarations, opensCode d.code = false) ↔
      ∀ c ∈ l.cuts, opensCode (Source.text c.piece) = false := by
    rw [← List.forall_mem_map (P := fun code => opensCode code = false), hfits.codes, List.forall_mem_map]
  have hpieces := forall₂_codes_iff (P := fun code c => fragmentTokens code = .ok c.piece) hfits.codes
  have hwhole : (fragmentTokens f.header = .ok l.header ∧
      List.Forall₂ (fun d c => fragmentTokens d.code = .ok c.piece) f.declarations l.cuts) ↔
      (opensCode f.header = true ∨ reopensCode f.header = true) ∧
        (∀ d ∈ f.declarations, opensCode d.code = false) ∧ NothingOpen (Machine.start source) l.header ∧
          ∀ (i : Nat) (c : Cut), l.cuts[i]? = some c →
            NothingOpen (Machine.start source) (l.before i ++ c.piece) := by
    rw [hpieces, hfree, hfits.header, header_reread_iff hheader hstop, nothingOpen_iff hheader]
    simp only [Source.Layout.before, List.append_assoc, nothingOpen_append_iff hheader]
    constructor
    · rintro ⟨⟨hopens, hempty⟩, hall⟩
      obtain ⟨hfrees, hopen⟩ := (pieces_reread_iff hcuts
        (hheader.plain (Machine.sound_start source) hstop hempty)
        (fun c hc => (hfits.cuts c hc).gap) hstops).1 hall
      exact ⟨hopens, hfrees, hempty, hopen⟩
    · rintro ⟨hopens, hfrees, hempty, hopen⟩
      exact ⟨⟨hopens, hempty⟩, (pieces_reread_iff hcuts
        (hheader.plain (Machine.sound_start source) hstop hempty)
        (fun c hc => (hfits.cuts c hc).gap) hstops).2 ⟨hfrees, hopen⟩⟩
  constructor
  · rintro ⟨l', hfits', hall⟩
    obtain rfl := hfits.unique hfits'
    exact ⟨l, hfits, hwhole.1 hall⟩
  · rintro ⟨l', hfits', hall⟩
    obtain rfl := hfits.unique hfits'
    exact ⟨l, hfits, hwhole.2 hall⟩

theorem shadeCode_of_fragmentTokens {r : Rule} {code : List Char} (h : fragmentTokens code = .ok ts) :
    shadeCode r code = .ok (ts.flatMap (shadeToken r)) := by
  rw [shadeCode, h]
  rfl

theorem exists_shadeDeclarations {r : Rule} {ds : List Declaration} {cuts : List Cut}
    (h : List.Forall₂ (fun d c => fragmentTokens d.code = .ok c.piece) ds cuts) :
    ∃ ds', shadeDeclarations r ds = .ok ds' := by
  induction h with
  | nil => exact ⟨[], rfl⟩
  | cons hd _ ih =>
    obtain ⟨ds', hds⟩ := ih
    simp only [shadeDeclarations, shadeDeclaration, shadeCode_of_fragmentTokens hd, hds]
    exact ⟨_, rfl⟩

/-- Divided as they are in the source, the fragments of a file can be shaded. -/
theorem Rereads.exists_shadeFile {f : File} (h : Rereads source f) (r : Rule) :
    ∃ f', shadeFile r f = .ok f' := by
  obtain ⟨l, -, hheader, hpieces⟩ := h
  obtain ⟨ds, hds⟩ := exists_shadeDeclarations (r := r) hpieces
  unfold shadeFile
  rw [shadeCode_of_fragmentTokens hheader]
  dsimp only
  rw [hds]
  exact ⟨_, rfl⟩

theorem exists_pass_of_shadeFile {locate : Path → Path} {r : Rule} {files : List File}
    (h : ∀ f ∈ files, ∃ f', shadeFile r f = .ok f') : ∃ kept, pass locate r files = .ok kept := by
  induction files with
  | nil => exact ⟨[], rfl⟩
  | cons f rest ih =>
    obtain ⟨kept, hkept⟩ := ih fun g hg => h g (List.mem_cons_of_mem f hg)
    obtain ⟨f', hf'⟩ := h f List.mem_cons_self
    unfold pass
    split
    · exact ⟨kept, hkept⟩
    · rw [hf', hkept]
      exact ⟨_, rfl⟩

/-- **What was split is divided again as it is in its sources, exactly if every source is cut where nothing
is open, from a header that opens code.** Every rule can then be applied to every file. -/
theorem fragments_reread_iff {sources : List (List Char)} {files : List File}
    (h : List.Forall₂ (fun source f => split f.path source = .ok f) sources files) :
    (List.Forall₂ Rereads sources files ↔ List.Forall₂ Separable sources files) ∧
      (List.Forall₂ Separable sources files → ∀ r, (∀ f ∈ files, ∃ f', shadeFile r f = .ok f') ∧
        ∀ locate, ∃ kept, pass locate r files = .ok kept) := by
  have hiff : List.Forall₂ Rereads sources files ↔ List.Forall₂ Separable sources files :=
    ⟨fun hall => h.mp (fun _ _ hsplit => (rereads_iff_separable hsplit).1) hall,
      fun hall => h.mp (fun _ _ hsplit => (rereads_iff_separable hsplit).2) hall⟩
  refine ⟨hiff, fun hseparable r => ?_⟩
  have hfiles : ∀ f ∈ files, ∃ f', shadeFile r f = .ok f' := by
    have hrereads := hiff.2 hseparable
    clear h hiff hseparable
    induction hrereads with
    | nil => simp
    | cons hf _ ih => exact List.forall_mem_cons.2 ⟨hf.exists_shadeFile r, ih⟩
  exact ⟨hfiles, fun locate => exists_pass_of_shadeFile hfiles⟩

/-- The statement holds of a class whose method interpolates a value. -/
theorem exists_fragments_reread : ∃ source f, split f.path source = .ok f ∧ Rereads source f ∧
    Separable source f ∧ ∀ r, ∃ f', shadeFile r f = .ok f' := by
  let source := "<?php\nnamespace A;\nclass B \x7b use C; const D = \"\x7b$e[0]\x7d\"; \x7d".toList
  let code := "class B \x7b use C; const D = \"\x7b$e[0]\x7d\"; \x7d".toList
  let f : File := ⟨⟨"a.php"⟩, "<?php\nnamespace A;".toList, ['A'], [⟨2, ['B'], code⟩]⟩
  let header : List Token := [⟨.openTag, "<?php\n".toList⟩, ⟨.keyword .namespaceWord, "namespace".toList⟩,
    ⟨.whitespace, [' ']⟩, ⟨.identifier, ['A']⟩, ⟨.punctuation, [';']⟩]
  let l : Source.Layout := ⟨header, [⟨[⟨.whitespace, ['\n']⟩], (fragmentTokens code).toOption.getD []⟩], []⟩
  have hsplit : split f.path source = .ok f := by decide +kernel
  have hfits : l.Fits source f := by decide +kernel
  have hrereads : Rereads source f :=
    ⟨l, hfits, by decide +kernel, .cons (by decide +kernel) .nil⟩
  obtain ⟨hiff, hshade⟩ := fragments_reread_iff (.cons hsplit .nil)
  have hseparable := hiff.1 (.cons hrereads .nil)
  refine ⟨source, f, hsplit, hrereads, ?_, fun r => (hshade hseparable r).1 f List.mem_cons_self⟩
  cases hseparable with
  | cons h _ => exact h

/-- Text in front of the first tag, where it is read as code, begins a literal that does not end. -/
theorem leading_text_not_reread : ∃ source f r, split f.path source = .ok f ∧
    shadeCode r f.header = .error (.unterminatedString 2) ∧
      shadeFile r f = .error ⟨f.path, .unterminatedString 2⟩ := by
  let source := "it's\n<?php\nnamespace A\\B;\nclass C \x7b\x7d\n".toList
  let f : File := ⟨⟨"a.php"⟩, "it's\n<?php\nnamespace A\\B;".toList, "A\\B".toList,
    [⟨3, ['C'], "class C \x7b\x7d".toList⟩]⟩
  let r : Rule := ⟨"A\\B".toList, by decide +kernel, ⟨"libs_xyz".toList, by decide +kernel⟩, none, none⟩
  exact ⟨source, f, r, by decide +kernel, by decide +kernel, by decide +kernel⟩

end PluginShading.Shading
