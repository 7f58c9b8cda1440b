import Yikes.Lib.Page
import Yikes.Properties.Urls

/-!
# Page — what a reader of the page sees

Whatever the files are called, the page has the tags of the template, and a row for every item; its
links and images are those of the items, in order, and the names of the files are read as they are
(`page_read`).  The links are escaped twice, for a URL and for the page; the images need no second
escaping, as an escaped URL has no quotation mark in it.  Of the template engine no more is assumed than
that escaping does what it is for (`Erubis.Escapes`).
-/

namespace Yikes

open Ruby
open Ruby.Html (Token Tag Harmless)

/-! ## Characters of URLs -/

theorem toNat_ofNat (n : Nat) : (Char.ofNat n).toNat = if n.isValidChar then n else 0 := by
  by_cases hvalid : n.isValidChar
  · have hchar : Char.ofNat n = Char.ofNatAux n hvalid := dif_pos hvalid
    rw [hchar, if_pos hvalid]
    rfl
  · have hzero : Char.ofNat n = '\x00' := dif_neg hvalid
    rw [hzero, if_neg hvalid]
    rfl

theorem toNat_hexDigit (n : Nat) :
    (48 ≤ (Uri.hexDigit n).toNat ∧ (Uri.hexDigit n).toNat < 58) ∨ 65 ≤ (Uri.hexDigit n).toNat ∨
      (Uri.hexDigit n).toNat = 0 := by
  have hzero : '0'.toNat = 48 := rfl
  have hA : 'A'.toNat = 65 := rfl
  unfold Uri.hexDigit
  split
  · rw [toNat_ofNat, hzero]
    split <;> omega
  · rw [toNat_ofNat, hA]
    split <;> omega

theorem of_mem_escape {s : Str} {c : Char} (h : c ∈ Uri.escape s) :
    (c ∈ s ∧ Uri.isSafe c = true) ∨ c = '%' ∨ ∃ n, c = Uri.hexDigit n := by
  rcases List.mem_flatMap.1 h with ⟨d, hd, hc⟩
  split at hc
  · next hsafe =>
      have hsame := List.mem_singleton.1 hc
      exact Or.inl ⟨hsame ▸ hd, hsame ▸ hsafe⟩
  · simp only [List.mem_cons, List.not_mem_nil, or_false] at hc
    rcases hc with rfl | rfl | rfl
    · exact Or.inr (Or.inl rfl)
    · exact Or.inr (Or.inr ⟨_, rfl⟩)
    · exact Or.inr (Or.inr ⟨_, rfl⟩)

theorem harmless_of_isSafe {c : Char} (h : Uri.isSafe c = true) : Harmless c := by
  refine ⟨?_, ?_, ?_⟩
  all_goals
    rintro rfl
    exact absurd h (by decide)

theorem harmless_hexDigit (n : Nat) : Harmless (Uri.hexDigit n) := by
  have hcode := toNat_hexDigit n
  refine ⟨?_, ?_, ?_⟩
  all_goals
    intro hc
    rw [hc] at hcode
    revert hcode
    decide

theorem harmless_uri {s : Str} : ∀ c ∈ Uri.escape s, Harmless c := by
  intro c hc
  rcases of_mem_escape hc with ⟨-, hsafe⟩ | rfl | ⟨n, rfl⟩
  · exact harmless_of_isSafe hsafe
  · decide
  · exact harmless_hexDigit n

theorem amp_of_mem_escape {s : Str} (h : '&' ∈ Uri.escape s) : '&' ∈ s := by
  rcases of_mem_escape h with ⟨hmem, -⟩ | hpercent | ⟨n, hn⟩
  · exact hmem
  · exact absurd hpercent (by decide)
  · have hcode := toNat_hexDigit n
    rw [← hn] at hcode
    exact absurd hcode (by decide)

theorem harmless_urlBase (port : Nat) : ∀ c ∈ urlBase port, Harmless c :=
  fun c hc => harmless_of_isSafe (StaticFileController.isSafe_urlBase port c hc)

theorem amp_not_mem_urlBase (port : Nat) : '&' ∉ urlBase port := by
  intro h
  rcases List.mem_append.1 h with hfront | hport
  · revert hfront
    decide
  · have hdigit := Nat.isDigit_of_mem_toDigits (by decide) (by decide) hport
    revert hdigit
    decide

/-! ## Tags with a value -/

/-- A value between quotation marks does not end the tag. -/
theorem fits_value {front value back : Str} (hfront : '>' ∉ front) (hback : '>' ∉ back)
    (hvalue : ∀ c ∈ value, Harmless c) : (Token.tag (front ++ value ++ back)).Fits := by
  intro hmem
  rcases List.mem_append.1 hmem with hmem | hmem
  · rcases List.mem_append.1 hmem with hmem | hmem
    · exact hfront hmem
    · exact (hvalue _ hmem).2.1 rfl
  · exact hback hmem

/-- A value is read as what it is, if the key stands in front of it. -/
theorem valueOf_eq {key opened front value closed back behind : Str}
    (hopened : opened = front ++ ['"']) (hclosed : closed = '"' :: back)
    (hvalue : ∀ c ∈ value, Harmless c)
    (hkey : ∀ v, (Tag.pairs (front.splitOn '"' ++ v :: back.splitOn '"')).findSome? (fun p =>
      if (key ++ ['=']).isSuffixOf p.1 then some (Html.unescape p.2) else none) =
        some (Html.unescape v)) :
    (Tag.mk (opened ++ value ++ closed) behind).valueOf key = some (Html.unescape value) := by
  have hquot : '"' ∉ value := fun hmem => (hvalue _ hmem).2.2 rfl
  have hinner : opened ++ value ++ closed = front ++ '"' :: (value ++ '"' :: back) := by
    simp [hopened, hclosed]
  rw [hinner, Tag.valueOf, List.splitOn_append_cons_self,
    List.splitOn_append_cons_self_of_not_mem hquot]
  exact hkey value

/-- An escaped value has no character that ends a text or a value, and a reader gets the value back;
nothing but blanks is left around a statement. -/
structure Erubis.Escapes (erubis : Erubis) : Prop where
  harmless : ∀ s, ∀ c ∈ erubis.escape s, Harmless c
  unescape : ∀ s, Html.unescape (erubis.escape s) = s
  blanks : ∀ s, ∀ c ∈ erubis.blanks s, c ∈ s

namespace MainController

variable {erubis : Erubis} {port : Nat} {md5 : Str → Str} {createdAt : EncodingItem → Str}

/-! ## The parts of the page -/

/-- A token of the template that is neither a link nor an image. -/
def Still (token : Token) : Prop :=
  token.Fits ∧ token.element ≠ some "a".toList ∧ token.element ≠ some "img".toList

instance : DecidablePred Still :=
  fun token => inferInstanceAs (Decidable (token.Fits ∧ _ ∧ _))

theorem still_assets : ∀ token ∈ assets port, Still token := by
  have helement : ∀ {name : Str}, name ∉ ["link".toList, "link".toList, "script".toList,
      "/script".toList, "script".toList, "/script".toList] →
      ∀ token ∈ assets port, token.element ≠ some name := by
    intro name hname token htoken heq
    exact hname (List.mem_filterMap.2 ⟨token, htoken, heq⟩)
  intro token htoken
  refine ⟨?_, helement (by decide) token htoken, helement (by decide) token htoken⟩
  simp only [assets, List.mem_cons, List.not_mem_nil, or_false] at htoken
  rcases htoken with rfl | rfl | rfl | rfl | rfl | rfl | rfl | rfl | rfl | rfl
  all_goals first
    | decide
    | exact fits_value (by decide) (by decide) (harmless_urlBase port)

theorem still_head : ∀ token ∈ head port, Still token := by
  have hpreamble : ∀ token ∈ preamble, Still token := by decide +kernel
  have hopening : ∀ token ∈ opening, Still token := by decide +kernel
  intro token htoken
  rcases List.mem_append.1 htoken with htoken | htoken
  · exact hpreamble token htoken
  · rcases List.mem_append.1 htoken with htoken | htoken
    · exact still_assets token htoken
    · exact hopening token htoken

theorem links_head (page : List Token) :
    Html.links (Html.gather (head port ++ page)).2 = Html.links (Html.gather page).2 := by
  have hnamed := Html.named_append (fun token htoken => (@still_head port token htoken).2.1) page
  rw [Html.links, hnamed, Html.links]

theorem images_head (page : List Token) :
    Html.images (Html.gather (head port ++ page)).2 = Html.images (Html.gather page).2 := by
  have hnamed := Html.named_append (fun token htoken => (@still_head port token htoken).2.2) page
  rw [Html.images, hnamed, Html.images]

theorem links_row (herubis : erubis.Escapes) (item : EncodingItem) (page : List Token) :
    Html.links (Html.gather (row port erubis md5 createdAt item ++ page)).2 =
      (item.sourceUrl port, item.subpath) :: Html.links (Html.gather page).2 := by
  -- of the row only the tag of the link counts, and the text behind it
  have hgather : Html.links (Html.gather (row port erubis md5 createdAt item ++ page)).2 =
      (((Tag.mk ("a href=\"".toList ++ erubis.escape (item.sourceUrl port) ++ "\"".toList)
          (erubis.escape item.subpath ++ [])).valueOf "href".toList).getD [],
        Html.unescape (erubis.escape item.subpath ++ [])) :: Html.links (Html.gather page).2 := rfl
  have hopened : "a href=\"".toList = "a href=".toList ++ ['"'] := rfl
  have hclosed : "\"".toList = '"' :: [] := rfl
  rw [hgather, valueOf_eq hopened hclosed (herubis.harmless _) (fun _ => rfl), herubis.unescape,
    List.append_nil, herubis.unescape]
  rfl

theorem images_row (item : EncodingItem) (hamp : '&' ∉ md5 item.subpath) (page : List Token) :
    Html.images (Html.gather (row port erubis md5 createdAt item ++ page)).2 =
      item.screenshotUrl port md5 :: Html.images (Html.gather page).2 := by
  have hgather : Html.images (Html.gather (row port erubis md5 createdAt item ++ page)).2 =
      ((Tag.mk ("img align=\"center\" width=\"50%\" height=\"50%\" src=\"".toList ++
          item.screenshotUrl port md5 ++ "\" /".toList) []).valueOf "src".toList).getD [] ::
        Html.images (Html.gather page).2 := rfl
  have hopened : "img align=\"center\" width=\"50%\" height=\"50%\" src=\"".toList =
      "img align=\"center\" width=\"50%\" height=\"50%\" src=".toList ++ ['"'] := rfl
  have hclosed : "\" /".toList = '"' :: " /".toList := rfl
  -- the URL is not escaped for the page, and has no entity in it either
  have hplain : '&' ∉ item.screenshotUrl port md5 := by
    intro h
    rcases List.mem_append.1 (amp_of_mem_escape h) with h | h
    · rcases List.mem_append.1 h with h | h
      · exact amp_not_mem_urlBase port h
      · exact absurd h (by decide)
    · rcases List.mem_append.1 h with h | h
      · exact hamp h
      · exact absurd h (by decide)
  have hsafe : ∀ c ∈ item.screenshotUrl port md5, Harmless c := harmless_uri
  rw [hgather, valueOf_eq hopened hclosed hsafe (fun _ => rfl), Html.unescape_of_no_entity hplain]
  rfl

theorem fits_blanks (herubis : erubis.Escapes) {s : Str} (hs : '<' ∉ s) :
    (Token.text (erubis.blanks s)).Fits :=
  fun hmem => hs (herubis.blanks s _ hmem)

theorem fits_row (herubis : erubis.Escapes) (hcreated : ∀ item, '<' ∉ createdAt item)
    (item : EncodingItem) :
    ∀ token ∈ row port erubis md5 createdAt item, token.Fits := by
  intro token htoken
  simp only [row, List.mem_cons, List.not_mem_nil, or_false] at htoken
  rcases htoken with rfl | rfl | rfl | rfl | rfl | rfl | rfl | rfl | rfl | rfl | rfl | rfl | rfl |
    rfl | rfl | rfl | rfl | rfl | rfl | rfl | rfl | rfl | rfl | rfl
  all_goals first
    | decide
    | exact fits_value (by decide) (by decide) harmless_uri
    | exact fits_value (by decide) (by decide) (herubis.harmless _)
    | exact fun hmem => (herubis.harmless _ _ hmem).1 rfl
    | exact fits_blanks herubis (by decide)
    | exact hcreated item

/-- The URL of the podcast, for iTunes. -/
def podcastUrl (port : Nat) : Str :=
  "itpc://localhost:".toList ++ Nat.toDigits 10 port ++ "/podcast".toList

theorem podcastUrl_safe {c : Char} (hc : c ∈ podcastUrl port) : Harmless c ∧ c ≠ '&' := by
  have hconst : ("itpc://localhost:".toList ++ "/podcast".toList).all
      (fun c => Uri.isSafe c && c != '&') = true := by
    decide
  have hsafe : Uri.isSafe c = true ∧ c ≠ '&' := by
    have hfixed : c ∈ "itpc://localhost:".toList ++ "/podcast".toList →
        Uri.isSafe c = true ∧ c ≠ '&' := fun hmem => by
      simpa using List.all_eq_true.1 hconst c hmem
    rcases List.mem_append.1 hc with hc | hc
    · rcases List.mem_append.1 hc with hc | hc
      · exact hfixed (List.mem_append_left _ hc)
      · have hdigit := Nat.isDigit_of_mem_toDigits (by decide) (by decide) hc
        refine ⟨Uri.isSafe_of_digit hdigit, ?_⟩
        rintro rfl
        exact absurd hdigit (by decide)
    · exact hfixed (List.mem_append_right _ hc)
  exact ⟨harmless_of_isSafe hsafe.1, hsafe.2⟩

/-- The link of the podcast, in one piece. -/
theorem podcast_tag (port : Nat) :
    "a href=\"".toList ++ Str.sub (urlBase port) "http".toList "itpc".toList ++ "/podcast\"".toList =
      "a href=\"".toList ++ podcastUrl port ++ "\"".toList := by
  have hbase : urlBase port = "http".toList ++ ("://localhost:".toList ++ Nat.toDigits 10 port) := rfl
  have hurl : podcastUrl port = "itpc".toList ++ ("://localhost:".toList ++ Nat.toDigits 10 port) ++
      "/podcast".toList := rfl
  have hlast : "/podcast\"".toList = "/podcast".toList ++ "\"".toList := rfl
  rw [hbase, Str.sub_append_self (by decide), hurl, hlast]
  simp only [List.append_assoc]

theorem subscribe_tag (port : Nat) :
    "img src=\"".toList ++ urlBase port ++ "/images/itunes_subscribe.png\" /".toList =
      "img src=\"".toList ++ (urlBase port ++ "/images/itunes_subscribe.png".toList) ++
        "\" /".toList := by
  have hlast : "/images/itunes_subscribe.png\" /".toList =
      "/images/itunes_subscribe.png".toList ++ "\" /".toList := rfl
  rw [hlast]
  simp only [List.append_assoc]

theorem fits_foot (herubis : erubis.Escapes) : ∀ token ∈ foot port erubis, token.Fits := by
  intro token htoken
  simp only [foot, List.mem_cons, List.not_mem_nil, or_false, podcast_tag] at htoken
  rcases htoken with rfl | rfl | rfl | rfl | rfl | rfl | rfl | rfl | rfl | rfl | rfl | rfl | rfl |
    rfl | rfl | rfl | rfl | rfl | rfl | rfl | rfl | rfl | rfl | rfl | rfl | rfl
  all_goals first
    | decide
    | exact fits_value (by decide) (by decide) (harmless_urlBase port)
    | exact fits_value (by decide) (by decide) fun c hc => (podcastUrl_safe hc).1
    | exact fits_blanks herubis (by decide)

theorem links_foot : Html.links (Html.gather (foot port erubis)).2 = [(podcastUrl port, " ".toList)] := by
  have hgather : Html.links (Html.gather (foot port erubis)).2 =
      [(((Tag.mk ("a href=\"".toList ++ Str.sub (urlBase port) "http".toList "itpc".toList ++
          "/podcast\"".toList) " ".toList).valueOf "href".toList).getD [], " ".toList)] := rfl
  have hopened : "a href=\"".toList = "a href=".toList ++ ['"'] := rfl
  have hclosed : "\"".toList = '"' :: [] := rfl
  have hamp : '&' ∉ podcastUrl port := fun hmem => (podcastUrl_safe hmem).2 rfl
  rw [hgather, podcast_tag,
    valueOf_eq hopened hclosed (fun c hc => (podcastUrl_safe hc).1) (fun _ => rfl),
    Html.unescape_of_no_entity hamp]
  rfl

theorem images_foot : Html.images (Html.gather (foot port erubis)).2 =
    [urlBase port ++ "/images/itunes_subscribe.png".toList] := by
  have hgather : Html.images (Html.gather (foot port erubis)).2 =
      [((Tag.mk ("img src=\"".toList ++ urlBase port ++ "/images/itunes_subscribe.png\" /".toList)
          " ".toList).valueOf "src".toList).getD []] := rfl
  have hopened : "img src=\"".toList = "img src=".toList ++ ['"'] := rfl
  have hclosed : "\" /".toList = '"' :: " /".toList := rfl
  have hname : ∀ c ∈ "/images/itunes_subscribe.png".toList, Harmless c :=
    Html.harmless_of_all (by decide)
  have hsafe : ∀ c ∈ urlBase port ++ "/images/itunes_subscribe.png".toList, Harmless c := by
    intro c hc
    rcases List.mem_append.1 hc with hc | hc
    · exact harmless_urlBase port c hc
    · exact hname c hc
  have hamp : '&' ∉ urlBase port ++ "/images/itunes_subscribe.png".toList := by
    intro hmem
    rcases List.mem_append.1 hmem with hmem | hmem
    · exact amp_not_mem_urlBase port hmem
    · exact absurd hmem (by decide)
  rw [hgather, subscribe_tag, valueOf_eq hopened hclosed hsafe (fun _ => rfl),
    Html.unescape_of_no_entity hamp]
  rfl

/-! ## The whole page -/

/-- The elements that the tags of a row open and close. -/
def rowElements : List Str :=
  ["tr".toList, "td".toList, "/td".toList, "td".toList, "img".toList, "/td".toList, "td".toList,
    "a".toList, "/a".toList, "/td".toList, "td".toList, "/td".toList, "/tr".toList]

theorem elements_row (item : EncodingItem) :
    (row port erubis md5 createdAt item).filterMap Token.element = rowElements := rfl

theorem links_rows (herubis : erubis.Escapes) (items : List EncodingItem) :
    Html.links (Html.gather (items.flatMap (row port erubis md5 createdAt) ++ foot port erubis)).2 =
      items.map (fun item => (item.sourceUrl port, item.subpath)) ++
        [(podcastUrl port, " ".toList)] := by
  induction items with
  | nil => exact links_foot
  | cons item items ih =>
      rw [List.flatMap_cons, List.append_assoc, links_row herubis, ih]
      rfl

theorem images_rows (hamp : ∀ s, '&' ∉ md5 s) (items : List EncodingItem) :
    Html.images (Html.gather (items.flatMap (row port erubis md5 createdAt) ++ foot port erubis)).2 =
      items.map (fun item => item.screenshotUrl port md5) ++
        [urlBase port ++ "/images/itunes_subscribe.png".toList] := by
  induction items with
  | nil => exact images_foot
  | cons item items ih =>
      rw [List.flatMap_cons, List.append_assoc, images_row item (hamp item.subpath), ih]
      rfl

theorem elements_rows (items : List EncodingItem) :
    (items.flatMap (row port erubis md5 createdAt)).filterMap Token.element =
      (List.replicate items.length rowElements).flatten := by
  induction items with
  | nil => rfl
  | cons item items ih =>
      rw [List.flatMap_cons, List.filterMap_append, elements_row, ih]
      rfl

/-- A reader of the page finds a row for every item and no other tags than those of the template,
whatever the files are called; the links and names are those of the items, in their order, and so are
the images. -/
theorem page_read {κ : Type} (herubis : erubis.Escapes) (hcreated : ∀ item, '<' ∉ createdAt item)
    (hdigest : ∀ (s : Str), ∀ c ∈ md5 s, c ∈ "0123456789abcdef".toList) (port : Nat)
    (engines : Registry κ) :
    (Html.read (page port erubis md5 createdAt engines)).2.map Tag.element =
        (head port).filterMap Token.element ++
          ((List.replicate (index engines).length rowElements).flatten ++
            (foot port erubis).filterMap Token.element) ∧
      Html.links (Html.read (page port erubis md5 createdAt engines)).2 =
        (index engines).map (fun item => (item.sourceUrl port, item.subpath)) ++
          [(podcastUrl port, " ".toList)] ∧
      Html.images (Html.read (page port erubis md5 createdAt engines)).2 =
        (index engines).map (fun item => item.screenshotUrl port md5) ++
          [urlBase port ++ "/images/itunes_subscribe.png".toList] := by
  have hamp : ∀ s, '&' ∉ md5 s := fun s hmem => absurd (hdigest s _ hmem) (by decide)
  -- whatever is inserted fits, so the reader finds the tokens of the template
  have hfits : ∀ token ∈ head port ++ (.text (erubis.blanks "\t\t\t".toList) ::
      ((index engines).flatMap (row port erubis md5 createdAt) ++ foot port erubis)), token.Fits := by
    intro token htoken
    rcases List.mem_append.1 htoken with htoken | htoken
    · exact (still_head token htoken).1
    · rcases List.mem_cons.1 htoken with rfl | htoken
      · exact fits_blanks herubis (by decide)
      · rcases List.mem_append.1 htoken with htoken | htoken
        · rcases List.mem_flatMap.1 htoken with ⟨item, -, htoken⟩
          exact fits_row herubis hcreated item token htoken
        · exact fits_foot herubis token htoken
  rw [page, Html.read_render hfits]
  refine ⟨?_, ?_, ?_⟩
  · have hblank : (Token.text (erubis.blanks "\t\t\t".toList)).element = none := rfl
    rw [Html.element_gather, List.filterMap_append, List.filterMap_cons_none hblank,
      List.filterMap_append, elements_rows]
  · rw [links_head, ← links_rows herubis]
    rfl
  · rw [images_head, ← images_rows hamp]
    rfl

end MainController

namespace Sample

def entity (c : Char) : Str :=
  if c = '&' then "&amp;".toList
  else if c = '<' then "&lt;".toList
  else if c = '>' then "&gt;".toList
  else if c = '"' then "&quot;".toList
  else [c]

/-- Four characters are escaped, and lines with a statement leave nothing. -/
def erubis : Erubis where
  escape := fun s => s.flatMap entity
  blanks := fun _ => []

theorem harmless_entity (c : Char) : ∀ d ∈ entity c, Harmless d := by
  unfold entity
  split
  · exact Html.harmless_of_all (by decide)
  · split
    · exact Html.harmless_of_all (by decide)
    · split
      · exact Html.harmless_of_all (by decide)
      · split
        · exact Html.harmless_of_all (by decide)
        · next hlt hgt hquot =>
            intro d hd
            rw [List.mem_singleton.1 hd]
            exact ⟨hlt, hgt, hquot⟩

theorem unescape_entity (c : Char) (s : Str) :
    Html.unescape (entity c ++ s) = c :: Html.unescape s := by
  unfold entity
  split
  · next hamp => simp [hamp, Html.unescape]
  · next hamp =>
      split
      · next hlt => simp [hlt, Html.unescape]
      · split
        · next hgt => simp [hgt, Html.unescape]
        · split
          · next hquot => simp [hquot, Html.unescape]
          · rw [List.singleton_append, Html.unescape_cons hamp]

theorem escapes_erubis : erubis.Escapes where
  harmless := by
    intro s c hc
    rcases List.mem_flatMap.1 hc with ⟨d, -, hd⟩
    exact harmless_entity d c hd
  unescape := by
    intro s
    induction s with
    | nil => rfl
    | cons c s ih => exact (unescape_entity c _).trans (congrArg (c :: ·) ih)
  blanks := fun _ _ hc => absurd hc List.not_mem_nil

end Sample

theorem page_read_sample :
    Html.links (Html.read (MainController.page 4000 Sample.erubis Sample.digest
        (fun _ => "2008-11-02 12:00".toList) Sample.converted)).2 =
      [("http://localhost:4000/files/a.mp4".toList, "a.avi".toList),
        ("itpc://localhost:4000/podcast".toList, " ".toList)] := by
  have hdate : '<' ∉ "2008-11-02 12:00".toList := by
    decide
  have hall : (Sample.digest []).all (· ∈ "0123456789abcdef".toList) = true := by
    decide
  have hdigest : ∀ (s : Str), ∀ c ∈ Sample.digest s, c ∈ "0123456789abcdef".toList := by
    intro s c hc
    simpa using List.all_eq_true.1 hall c hc
  have hread := MainController.page_read Sample.escapes_erubis (fun _ => hdate) hdigest 4000
    Sample.converted
  rw [hread.2.1]
  decide

end Yikes
