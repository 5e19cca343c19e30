import Arth.Lib.Decimal
import Arth.Vm.Attributes
import Arth.Vm.Escaping
import Arth.Vm.Json
import Arth.Vm.ValueMap

/-!
# Rendering templates

`template_render` of `template.inc.rs`. It works on the text of the template: elements are
found in a parsed copy and replaced in the text. The parser is the parameter `query`; a
computation logs the values it inserts.

* `Rendering` — computations that log what they insert, and may panic or not return.
* `templateRender` — includes, loops, conditions, bindings, and the removal of what is left of
  the directives.
* `escaping_iff` — escaping, unescaping and rendering on a string and a template.
-/

namespace Arth.Template

open List

open Json (trim isWhitespace)
open Occurrences (replaceAll splitAll)

abbrev Text := List Char

/-- What the parser tells of an element. -/
structure Element where
  tag : Text
  outer : Text
  inner : Text
  attrNames : List Text
  /-- The empty text for an attribute it does not have. -/
  attr : Text → Text

/-- The stores, the HTML parser, and the texts of floats. -/
structure World where
  templates : Int64 → Option Text
  partials : Text → Option Int64
  maps : ValueMap.Maps
  find : ValueMap.Find
  lists : Int64 → Option (List Value)
  /-- The elements of a text that a selector selects. -/
  query : Text → String → List Element
  floatText : F64 → Text

variable (w : World)

def World.mapGet (ctx : Int64) (key : Text) : Option Value :=
  w.maps.mapGet w.find ctx (.str (.ofList key))

def World.listGet (list : Int64) (index : Nat) : Option Value :=
  (w.lists list).bind (·[index]?)

def isTruthy : Value → Bool
  | .bool b => b
  | .i64 n => n ≠ 0
  | .f64 x => !Optionals.F64.eq x ⟨0⟩
  | .str s => s ≠ ""

def World.valueToString : Value → Text
  | .bool b => if b then "true".toList else "false".toList
  | .i64 n => Decimal.text n.toInt
  | .f64 x => w.floatText x
  | .str s => s.toList

/-- `parse::<usize>` -/
def parseUsize (s : Text) : Option Nat :=
  (Decimal.natOfText (if s.head? = some '+' then s.tail else s)).filter (· < 2 ^ 64)

theorem length_trim (s : Text) : (trim s).length ≤ s.length := by
  have hstart (t : Text) : (Json.trimStart t).length ≤ t.length :=
    (dropWhile_suffix isWhitespace).length_le
  have houter := hstart (Json.trimStart s).reverse
  have hinner := hstart s
  rw [length_reverse] at houter
  rw [trim, length_reverse]
  exact houter.trans hinner

/-- `items[0]` and plain names. -/
def evalName (expr : Text) (ctx : Int64) : Option Value :=
  match cutAt '[' expr with
  | some (name, index) =>
    if expr.getLast? = some ']' then
      match parseUsize index.dropLast, w.mapGet ctx name with
      | some index, some (.i64 list) => w.listGet list index
      | _, _ => none
    else w.mapGet ctx expr
  | none => w.mapGet ctx expr

def evalExpr (expr : Text) (ctx : Int64) : Option Value :=
  match _htrim : trim expr with
  | '!' :: inner => (evalExpr (trim inner) ctx).map fun val => .bool (!isTruthy val)
  | trimmed =>
    match _hcut : cutAt '.' trimmed with
    | some (root, rest) =>
      match w.mapGet ctx (trim root) with
      | some (.i64 nested) => evalExpr (trim rest) nested
      | _ => none
    | none => evalName w trimmed ctx
termination_by expr.length
decreasing_by
  · have hle := length_trim expr
    have hle' := length_trim inner
    rw [_htrim, List.length_cons] at hle
    omega
  · have hle := length_trim expr
    have hlt := length_of_cutAt _hcut
    have hle' := length_trim rest
    rw [_htrim] at hle
    omega

structure Inserted where
  value : Value
  text : Text

/-- What a computation inserted, and its result unless it panics or does not return. -/
structure Rendering (α : Type) where
  inserted : List Inserted
  result : Option α

namespace Rendering

instance : Monad Rendering where
  pure a := ⟨[], some a⟩
  bind r f :=
    match r.result with
    | none => ⟨r.inserted, none⟩
    | some a => ⟨r.inserted ++ (f a).inserted, (f a).result⟩

def stop {α : Type} : Rendering α := ⟨[], none⟩

/-- The text that stands for a value. -/
def insert (value : Value) (text : Text) : Rendering Text := ⟨[⟨value, text⟩], some text⟩

end Rendering

/-! ## Directives -/

/-- `str::replace` -/
def replaceText (old new text : Text) : Text :=
  if old = [] then new ++ text.flatMap (· :: new) else replaceAll old new text

/-- `<tag attrs>content</tag>` -/
def element (tag attrs content : Text) : Text :=
  '<' :: (tag ++ attrs ++ '>' :: (content ++ '<' :: '/' :: (tag ++ ['>'])))

/-- `name="value"` -/
def attrText (name value : Text) : Text := name ++ '=' :: '"' :: (value ++ ['"'])

def eqIgnoreAsciiCase (s t : Text) : Bool := s.map Char.toLower = t.map Char.toLower

def getAttrsExcept (elem : Element) (except : Text) : Text :=
  elem.attrNames.flatMap fun name =>
    if eqIgnoreAsciiCase except name || dataBind.isPrefixOf name then []
    else ' ' :: attrText name (escapeHtml (elem.attr name))

def getDataBindAttrs (elem : Element) (ctx : Int64) : Rendering Text :=
  elem.attrNames.foldlM (fun result name => do
    if dataBind.isPrefixOf name then
      match evalExpr w (elem.attr name) ctx with
      | some val =>
        let text ← .insert val (escapeHtml (w.valueToString val))
        pure (result ++ ' ' :: attrText (name.drop dataBind.length) text)
      | none => pure result
    else pure result) []

def bindElement (ctx : Int64) (output : Text) (elem : Element) : Rendering Text := do
  let bindExpr := elem.attr "data-bind".toList
  if bindExpr = [] then pure output
  else
    let attrs := getAttrsExcept elem "data-bind".toList
    let bindAttrs ← getDataBindAttrs w elem ctx
    let text ← match evalExpr w bindExpr ctx with
      | some val => .insert val (escapeHtml (w.valueToString val))
      | none => pure (escapeHtml [])
    pure (replaceText elem.outer (element elem.tag (attrs ++ bindAttrs) text) output)

structure DataBindElement where
  fullMatch : Text
  tag : Text
  attrsStr : Text

/-- The start tag with the content `tagContent`, if it has bound attributes. -/
def dataBindElement (tagContent : Text) : Option DataBindElement :=
  let tag := tagContent.takeWhile fun c => !isWhitespace c && c ≠ '/' && c ≠ '>'
  let rest := tagContent.dropWhile fun c => !isWhitespace c && c ≠ '/' && c ≠ '>'
  if dataBind <:+: tagContent ∧ tag ≠ [] ∧ tag.all Char.isAlphanum then
    some ⟨'<' :: (tagContent ++ ['>']), tag, rest.rdropWhile (· = '/')⟩
  else none

def findDataBindElements (html : Text) : List DataBindElement :=
  match _hstart : cutAt '<' html with
  | none => []
  | some (_, rest) =>
    if rest.head? = some '/' ∨ rest.head? = some '!' then findDataBindElements rest
    else
      match _hend : cutAt '>' rest with
      | none => []
      | some (tagContent, rest') => (dataBindElement tagContent).toList ++ findDataBindElements rest'
termination_by html.length
decreasing_by
  · exact length_of_cutAt _hstart
  · exact (length_of_cutAt _hend).trans (length_of_cutAt _hstart)

def bindAttributes (ctx : Int64) (output : Text) (elem : DataBindElement) : Rendering Text := do
  if "data-bind=".toList <:+: elem.attrsStr ∧ ¬ dataBind <:+: elem.attrsStr then pure output
  else
    match findAllDataBindAttrs elem.attrsStr with
    | none => .stop
    | some found =>
      let newAttrs ← found.foldlM (fun newAttrs a => do
        match evalExpr w a.expr ctx with
        | some val =>
          let text ← .insert val (escapeHtml (w.valueToString val))
          pure (replaceText a.full (attrText a.name text) newAttrs)
        | none => pure newAttrs) elem.attrsStr
      pure (replaceText elem.fullMatch ('<' :: (elem.tag ++ newAttrs ++ ['>'])) output)

def processBindings (html : Text) (ctx : Int64) : Rendering Text := do
  let output ← (w.query html "[data-bind]").foldlM (bindElement w ctx) html
  (findDataBindElements output).foldlM (bindAttributes w ctx) output

def processConditional (ctx : Int64) (output : Text) (elem : Element) : Text :=
  let conditionExpr := elem.attr "data-if".toList
  if conditionExpr = [] then output
  else if (evalExpr w conditionExpr ctx).any isTruthy then
    let attrs := getAttrsExcept elem "data-if".toList
    replaceText elem.outer (element elem.tag attrs elem.inner) output
  else replaceText elem.outer [] output

def processConditionals (html : Text) (ctx : Int64) : Text :=
  (w.query html "[data-if]").foldl (processConditional w ctx) html

def processForLoop (ctx : Int64) (output : Text) (elem : Element) : Rendering Text :=
  match splitAll " in ".toList (elem.attr "data-for".toList) with
  | [_, collection] =>
    match evalExpr w (trim collection) ctx with
    | some (.i64 list) =>
      if (w.lists list).getD [] = [] then pure (replaceText elem.outer [] output)
      -- the context exists, and copying it locks the store of the maps twice
      else .stop
    | _ => pure output
  | _ => pure output

def processForLoops (html : Text) (ctx : Int64) : Rendering Text :=
  (w.query html "[data-for]").foldlM (processForLoop w ctx) html

def processInclude (render : Int64 → Rendering Text) (output : Text) (elem : Element) :
    Rendering Text := do
  match w.partials (elem.attr "data-include".toList) with
  | none => pure output
  | some handle =>
    if elem.attr "data-include".toList = [] ∨ handle = 0 then pure output
    else
      let content ← render handle
      let attrs := getAttrsExcept elem "data-include".toList
      pure (replaceText elem.outer (element elem.tag attrs content) output)

def processIncludes (render : Int64 → Rendering Text) (html : Text) : Rendering Text :=
  (w.query html "[data-include]").foldlM (processInclude w render) html

/-- `template_render` with at most `n` includes inside each other. -/
def templateRender : Nat → Int64 → Int64 → Rendering Text
  | 0, _, _ => .stop
  | n + 1, handle, ctx =>
    match w.templates handle with
    | none => pure []
    | some html => do
      let output ← processIncludes w (fun handle => templateRender n handle ctx) html
      let output ← processForLoops w output ctx
      let output ← processBindings w (processConditionals w output ctx) ctx
      match removeDataAttrs output with
      | some output => pure output
      | none => .stop

/-! ## What is inserted -/

/-- Every value that a computation inserts is inserted as its escaped text. -/
def Rendering.Escapes {α : Type} (r : Rendering α) : Prop :=
  ∀ e ∈ r.inserted, e.text = escapeHtml (w.valueToString e.value)

section Escapes

variable {w} {α β : Type}

theorem escapes_pure (a : α) : (pure a : Rendering α).Escapes w := nofun

theorem escapes_stop : (.stop : Rendering α).Escapes w := nofun

theorem escapes_insert (val : Value) :
    (Rendering.insert val (escapeHtml (w.valueToString val))).Escapes w := by
  intro e he
  obtain rfl := mem_singleton.1 he
  rfl

theorem Rendering.Escapes.bind {r : Rendering α} {f : α → Rendering β} (hr : r.Escapes w)
    (hf : ∀ a, (f a).Escapes w) : (r >>= f).Escapes w := by
  intro e he
  have hbind : (r >>= f).inserted = match r.result with
      | none => r.inserted
      | some a => r.inserted ++ (f a).inserted := by
    change (match r.result with
      | none => (⟨r.inserted, none⟩ : Rendering β)
      | some a => ⟨r.inserted ++ (f a).inserted, (f a).result⟩).inserted = _
    cases r.result <;> rfl
  rw [hbind] at he
  cases hresult : r.result with
  | none =>
    rw [hresult] at he
    exact hr e he
  | some a =>
    rw [hresult] at he
    rcases mem_append.1 he with he | he
    · exact hr e he
    · exact hf a e he

theorem escapes_foldlM {f : β → α → Rendering β} (hf : ∀ b a, (f b a).Escapes w) (as : List α)
    (b : β) : (as.foldlM f b).Escapes w := by
  induction as generalizing b with
  | nil => exact escapes_pure b
  | cons a as ih => exact (hf b a).bind ih

theorem getDataBindAttrs_escapes (elem : Element) (ctx : Int64) :
    (getDataBindAttrs w elem ctx).Escapes w := by
  refine escapes_foldlM (fun result name => ?_) _ _
  split_ifs
  · split
    · exact (escapes_insert _).bind escapes_pure
    · exact escapes_pure _
  · exact escapes_pure _

theorem bindElement_escapes (ctx : Int64) (output : Text) (elem : Element) :
    (bindElement w ctx output elem).Escapes w := by
  unfold bindElement
  dsimp only
  split_ifs
  · exact escapes_pure _
  · refine (getDataBindAttrs_escapes elem ctx).bind fun bindAttrs => ?_
    split
    · exact (escapes_insert _).bind escapes_pure
    · exact (escapes_pure _).bind escapes_pure

theorem bindAttributes_escapes (ctx : Int64) (output : Text) (elem : DataBindElement) :
    (bindAttributes w ctx output elem).Escapes w := by
  unfold bindAttributes
  split_ifs
  · exact escapes_pure _
  · split
    · exact escapes_stop
    · refine Rendering.Escapes.bind (escapes_foldlM (fun newAttrs a => ?_) _ _) fun newAttrs =>
        escapes_pure _
      split
      · exact (escapes_insert _).bind escapes_pure
      · exact escapes_pure _

theorem processBindings_escapes (html : Text) (ctx : Int64) :
    (processBindings w html ctx).Escapes w :=
  (escapes_foldlM (bindElement_escapes ctx) _ _).bind fun _ =>
    escapes_foldlM (bindAttributes_escapes ctx) _ _

theorem processForLoops_escapes (html : Text) (ctx : Int64) :
    (processForLoops w html ctx).Escapes w := by
  refine escapes_foldlM (fun output elem => ?_) _ _
  unfold processForLoop
  split
  · split
    · split_ifs
      · exact escapes_pure _
      · exact escapes_stop
    · exact escapes_pure _
  · exact escapes_pure _

theorem processIncludes_escapes {render : Int64 → Rendering Text}
    (hrender : ∀ handle, (render handle).Escapes w) (html : Text) :
    (processIncludes w render html).Escapes w := by
  refine escapes_foldlM (fun output elem => ?_) _ _
  unfold processInclude
  split
  · exact escapes_pure _
  · rename_i handle _
    split_ifs
    · exact escapes_pure _
    · exact (hrender handle).bind escapes_pure

/-- **Rendering inserts escaped text only**, also where it does not come to an end. -/
theorem templateRender_escapes (n : Nat) (handle ctx : Int64) :
    (templateRender w n handle ctx).Escapes w := by
  induction n generalizing handle with
  | zero => exact escapes_stop
  | succ n ih =>
    rw [templateRender]
    split
    · exact escapes_pure _
    · refine (processIncludes_escapes (ih) _).bind fun output => ?_
      refine (processForLoops_escapes output ctx).bind fun output => ?_
      refine (processBindings_escapes _ ctx).bind fun output => ?_
      split
      · exact escapes_pure _
      · exact escapes_stop

end Escapes

/-- Escaping loses nothing and leaves no markup, and rendering inserts nothing else. -/
structure EscapingWorks (n : Nat) (handle ctx : Int64) (s : Text) : Prop where
  roundTrip : unescapeHtml (escapeHtml s) = s
  inert : Inert (escapeHtml s)
  injective : ∀ t, escapeHtml t = escapeHtml s → t = s
  inserted : (templateRender w n handle ctx).Escapes w

/-- **Escaping.** For any template, context and text, everything holds if and only if nothing
in the text reads like one of the entities other than `&amp;`. -/
theorem escaping_iff (n : Nat) (handle ctx : Int64) (s : Text) :
    EscapingWorks w n handle ctx s ↔ EntityFree s := by
  constructor
  · intro h
    exact (unescape_escape_iff s).1 h.roundTrip
  · intro h
    exact ⟨(unescape_escape_iff s).2 h, inert_escapeHtml s, fun _ heq => escapeHtml_injective heq,
      templateRender_escapes n handle ctx⟩

theorem entity_lost : unescapeHtml (escapeHtml "&lt;".toList) = "<".toList ∧
      ¬ ∀ s, unescapeHtml (escapeHtml s) = s := by
  have hlost : unescapeHtml (escapeHtml "&lt;".toList) = "<".toList := by decide +kernel
  refine ⟨hlost, fun h => ?_⟩
  have heq := hlost.symm.trans (h _)
  cases heq

end Arth.Template
