import MacroScript.Text.Basic

/-!
# Tags

The tag of a value is what the analysis knows about it. The primitive tags come from literals. The
others name a built-in object, either its bare namespace (`Region`) or a value made by calling into
it (`Region()`, `Region().find()`). `any` says that nothing is known.
-/
namespace MacroScript

/-- What is known about a value. -/
inductive Tag where
  | string
  | number
  | boolean
  | null
  | array
  | any
  | sys
  | map
  | math
  | point
  | pointValue
  | swipePointValue
  | multiSwipe
  | multiSwipeBuilder
  | touch
  | region
  | regionValue
  | regionMatch
  | regionTextMatch
  | template
  | templateBuilder
  | setting
  | settingBuilder
  | settingDialog
  | onScreenText
  | onScreenTextValue
  | dateTime
  | dateTimeValue
  | timeSpan
  | timeSpanValue
  | stopwatchValue
  | clipboardValue
  | overlayValue
  | file
  | cache
  | env
  | versionValue
deriving DecidableEq, Repr

namespace Tag

/-- Every tag. Completion that knows nothing of an owner offers members in this order. -/
def all : List Tag :=
  [string, number, boolean, null, array, any, sys, map, math, point, pointValue, swipePointValue,
    multiSwipe, multiSwipeBuilder, touch, region, regionValue, regionMatch, regionTextMatch,
    template, templateBuilder, setting, settingBuilder, settingDialog, onScreenText,
    onScreenTextValue, dateTime, dateTimeValue, timeSpan, timeSpanValue, stopwatchValue,
    clipboardValue, overlayValue, file, cache, env, versionValue]

/-- An expression that has this tag. It stands in for a name whose tag is known. -/
def canonical : Tag → String
  | string => "\"\""
  | number => "0"
  | boolean => "true"
  | null => "null"
  | array => "[]"
  | any => "any"
  | sys => "Sys"
  | map => "Map"
  | math => "Math"
  | point => "Point"
  | pointValue => "Point()"
  | swipePointValue => "SwipePoint()"
  | multiSwipe => "MultiSwipe"
  | multiSwipeBuilder => "MultiSwipe.builder()"
  | touch => "Touch"
  | region => "Region"
  | regionValue => "Region()"
  | regionMatch => "Region().find()"
  | regionTextMatch => "Region().findText()"
  | template => "Template"
  | templateBuilder => "Template.image()"
  | setting => "Setting"
  | settingBuilder => "Setting.builder()"
  | settingDialog => "Setting.builder().build()"
  | onScreenText => "OnScreenText"
  | onScreenTextValue => "OnScreenText()"
  | dateTime => "DateTime"
  | dateTimeValue => "DateTime()"
  | timeSpan => "TimeSpan"
  | timeSpanValue => "TimeSpan()"
  | stopwatchValue => "Stopwatch()"
  | clipboardValue => "Clipboard()"
  | overlayValue => "Overlay()"
  | file => "File"
  | cache => "Cache"
  | env => "Env"
  | versionValue => "Version()"

/-- The tag comes from a literal, or is unknown. -/
def isPrimitive : Tag → Bool
  | string | number | boolean | null | array | any => true
  | _ => false

/-- The name of the tag as people read it. -/
def label : Tag → String
  | string => "string"
  | number => "number"
  | boolean => "boolean"
  | null => "null"
  | array => "array"
  | any => "any"
  | tag => tag.canonical

end Tag

end MacroScript
