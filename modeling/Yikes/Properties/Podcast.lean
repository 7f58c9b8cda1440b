import Yikes.Lib.Controllers

/-!
# Podcast — which videos the feed lists

The feed is made from the state of an engine that `Yikes` does not have, so no registry has a feed.
What the feed of one state would hold is an element for every finished item, empty for one that
failed.
-/

namespace Yikes
namespace PodcastController

open Ruby

variable (port : Nat) (timeText : Time → Str)

/-- The element of an item has its subpath and its URL. -/
def Carries (element : Xml) (x : EncodingItem) : Prop :=
  ∃ children attributes, element = .block "item".toList children ∧
    .tag "title".toList x.subpath ∈ children ∧
    .element "enclosure".toList attributes [] ∈ children ∧
    ("url".toList, x.sourceUrl port) ∈ attributes

/-- A document has one `item` element for each item that succeeded, in order, and no other. -/
def Lists (xml : Xml) (items : List EncodingItem) : Prop :=
  List.Forall₂ (Carries port) (xml.named "item".toList) (items.filter fun x => x.succeeded)

theorem named_itemBlock (x : EncodingItem) :
    Xml.named "item".toList (.block "item".toList (itemBlock port timeText x)) =
      [.block "item".toList (itemBlock port timeText x)] := by
  cases hx : x.succeeded <;> simp [itemBlock, hx, Xml.block, Xml.named, Xml.namedIn, Xml.tag]

/-- The feed has an `item` element for every finished item, also for those that failed. -/
theorem named_feed (app : State) :
    (feed port timeText app).named "item".toList =
      app.getFinishedItems.map fun x => .block "item".toList (itemBlock port timeText x) := by
  have hitems := Xml.namedIn_map (named_itemBlock port timeText) app.getFinishedItems
  simp only [Xml.block] at hitems
  simpa [feed, Xml.block, Xml.named, Xml.namedIn, Xml.tag] using hitems

theorem carries_itemBlock {x : EncodingItem} (hx : x.succeeded = true) :
    Carries port (.block "item".toList (itemBlock port timeText x)) x := by
  refine ⟨_, [("url".toList, x.sourceUrl port), ("length".toList, "100000".toList),
    ("type".toList, "video/mp4".toList)], rfl, ?_, ?_, ?_⟩
  · simp [itemBlock, hx]
  · simp [itemBlock, hx]
  · simp

/-- The feed of a state lists its finished items exactly if none of them failed. -/
theorem lists_feed_iff (app : State) :
    Lists port (feed port timeText app) app.getFinishedItems ↔
      ∀ x ∈ app.getFinishedItems, x.succeeded = true := by
  unfold Lists
  rw [named_feed]
  constructor
  · -- with a failed item there is one element more than there should be
    intro h
    have hlength := h.length_eq
    rw [List.length_map] at hlength
    exact List.length_filter_eq_length_iff.1 hlength.symm
  · intro h
    rw [List.filter_eq_self.2 h, List.forall₂_map_left_iff, List.forall₂_same]
    intro x hx
    exact carries_itemBlock port timeText (h x hx)

/-- No registry has a document that lists the items of `MainController#index`: there is none at all.
The feed of a single state would list the items that succeeded exactly if none of its items failed. -/
theorem podcast_never_lists {κ : Type} (engines : Registry κ) :
    (podcastXml port timeText engines = .error noEngine ∧
      ¬ ∃ xml, podcastXml port timeText engines = .ok xml ∧
        Lists port xml (MainController.index engines)) ∧
    ∀ app : State, Lists port (feed port timeText app) app.getFinishedItems ↔
      ∀ x ∈ app.getFinishedItems, x.succeeded = true := by
  refine ⟨⟨rfl, ?_⟩, lists_feed_iff port timeText⟩
  rintro ⟨xml, hxml, -⟩
  cases hxml

end PodcastController

namespace Sample

/-- One item that succeeded, and one that failed. -/
def mixed : Registry Unit :=
  Registry.empty.add ("v".toList, "u".toList)
    { transcoder := ()
      state := ((State.new "v".toList).encodeSucceeded (.new "v".toList "v/a.avi".toList "u".toList)
        0).encodeFailed (.new "v".toList "v/b.avi".toList "u".toList) 1 } rfl

end Sample

/-- The podcast of an engine that has converted `v/a.avi` and failed on `v/b.avi` raises; made from the
state of this engine it would have two `item` elements. -/
theorem podcast_raises :
    (¬ ∃ xml, PodcastController.podcastXml 4000 (fun _ => []) Sample.mixed = .ok xml ∧
        PodcastController.Lists 4000 xml (MainController.index Sample.mixed)) ∧
      PodcastController.podcastXml 4000 (fun _ => []) Sample.mixed =
        .error PodcastController.noEngine ∧
      ((MainController.index Sample.mixed).filter fun x => x.succeeded).length = 1 ∧
      ∀ engine ∈ EngineManager.activeEngines Sample.mixed,
        ((PodcastController.feed 4000 (fun _ => []) engine.state).named "item".toList).length = 2 := by
  refine ⟨?_, rfl, by decide, ?_⟩
  · rintro ⟨xml, hxml, -⟩
    cases hxml
  intro engine hengine
  have hstate : engine.state.getFinishedItems.length = 2 := by
    have hall : ∀ e ∈ EngineManager.activeEngines Sample.mixed,
        e.state.getFinishedItems.length = 2 := by
      decide
    exact hall engine hengine
  rw [PodcastController.named_feed, List.length_map, hstate]

end Yikes
