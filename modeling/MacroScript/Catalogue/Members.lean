import MacroScript.Tag

/-!
# Members of built-in objects and built-in names

What can follow the point after a value of each tag, and the names that every script can use without
declaring them.
-/
namespace MacroScript

/-- What a completion candidate stands for. -/
inductive Candidate.Kind where
  | method
  | constant
  | variable
  | function
  | classDefinition
  | keyword
deriving DecidableEq, Repr

namespace Catalogue

/-! ## Members -/

/-- The methods of values with the tag. -/
def methods : Tag → List String
  | .string =>
    ["charAt", "compare", "concat", "contains", "endsWith", "startsWith", "toArray", "length",
     "indexOf", "lastIndexOf", "matches", "replace", "replaceAll", "split", "subString",
     "toLowerCase", "toUpperCase", "trim", "join"]
  | .number => ["parse"]
  | .array =>
    ["push", "pop", "unshift", "shift", "insertAt", "insertRange", "removeAt", "removeRange",
     "slice", "concat", "clear", "clone"]
  | .sys =>
    ["alert", "stop", "err", "noti", "playMedia", "toast", "log", "info", "currentTime",
     "currentVersion", "sdk", "lang", "darkMode", "globalAction", "dpi", "openApp", "wake"]
  | .map =>
    ["entries", "keys", "values", "containsKey", "containsValue", "get", "put", "putAll",
     "putIfAbsent", "remove", "replace", "size", "isEmpty"]
  | .math =>
    ["E", "pl", "cos", "sin", "tan", "acos", "asin", "atan", "atan2", "sqrt", "cbrt", "hypot",
     "ceil", "floor", "round", "exp", "pow", "log", "log10", "log1p", "abs", "max", "min", "random",
     "toDegrees", "toRadians", "randomRange"]
  | .point => ["scale"]
  | .pointValue => ["getX", "getY", "offset", "noScale"]
  | .swipePointValue => ["getX", "getY", "getHold", "getSpeed"]
  | .multiSwipe => ["builder"]
  | .multiSwipeBuilder => ["add", "setSParam", "build"]
  | .touch => ["down", "up", "move", "dispatch"]
  | .region => ["deviceReg", "macroReg", "scale", "highlightOff"]
  | .regionValue =>
    ["getX", "getY", "getW", "getH", "getMiddlePoint", "getLastMatch", "getLastMatches", "setX",
     "setY", "setW", "setH", "noScale", "left", "top", "right", "horizontal", "vertical", "middle",
     "pad", "leftPixel", "topPixel", "rightPixel", "bottomPixel", "horizontalPixel",
     "verticalPixel", "middlePixel", "padPixel", "offset", "find", "findMulti", "findAll",
     "findAny", "click", "clickMulti", "clickAll", "clickAny", "wait", "waitAll", "findText",
     "findMultiText", "findAllText", "findAnyText", "clickText", "clickMultiText", "clickAllText",
     "clickAnyText", "waitText", "waitAllText", "highlight", "highlightOff", "capture", "read",
     "readPlain", "readAsString", "readAsNumber"]
  | .regionMatch => ["getRegion", "getPoint", "getScore", "click"]
  | .regionTextMatch => ["getRegion", "getPoint", "getText", "click"]
  | .template => ["image", "color", "text"]
  | .templateBuilder =>
    ["value", "mScore", "method", "segment", "mask", "offset", "width", "height", "scale", "rotate",
     "gray", "threshold", "build"]
  | .setting =>
    ["get", "set", "remove", "clear", "save", "loadVars", "setDialog", "show", "builder"]
  | .settingBuilder =>
    ["add", "group", "groupEnd", "setTitle", "setPositiveButton", "setNegativeButton", "build"]
  | .settingDialog => ["show", "preview"]
  | .onScreenText => ["off"]
  | .onScreenTextValue =>
    ["getX", "getY", "getW", "getH", "getText", "getTextColor", "getBackgroundColor", "getRegion",
     "getClickState", "getMoveState", "getResizeState", "setX", "setY", "setW", "setH", "setText",
     "setTextColor", "setBackgroundColor", "setBackgroundImage", "setTextSize", "moveable",
     "clickable", "resizable", "noScale", "show", "hidden", "off"]
  | .dateTime => ["parse", "fromUnixMillis", "timeZoneOffset"]
  | .dateTimeValue =>
    ["date", "year", "month", "day", "dayOfWeek", "dayOfYear", "hour", "minute", "second", "millis",
     "totalMillis", "add", "addYears", "addMonths", "addDays", "addHours", "addMinutes",
     "addSeconds", "addMillis", "sub", "format"]
  | .timeSpan => ["fromDays", "fromHours", "fromMinutes", "fromSeconds"]
  | .timeSpanValue =>
    ["days", "hours", "minutes", "seconds", "millis", "totalDays", "totalHours", "totalMinutes",
     "totalSeconds", "totalMillis", "isNegative", "isZero", "add", "addDays", "addHours",
     "addMinutes", "addSeconds", "addMillis", "sub", "mul", "div", "format"]
  | .stopwatchValue => ["start", "stop", "reset", "restart", "elapsed", "isRunning", "isElapsed"]
  | .clipboardValue => ["clear", "copy", "paste"]
  | .overlayValue => ["setOpacity", "getState", "setState", "getRegion", "move", "spin"]
  | .file =>
    ["writeText", "writeLines", "appendText", "appendLines", "readText", "readLines", "separator",
     "copy", "delete", "exists", "isDir", "mkdirs", "list"]
  | .cache => ["screen", "screenOff", "region", "regionOff", "clearImage"]
  | .env =>
    ["macroX", "setMacroX", "macroY", "setMacroY", "deviceX", "deviceY", "deviceW", "deviceH",
     "scale", "setScale", "setCompareWidth", "isDebug", "setDebug", "setMessageDone",
     "setMessageStop", "setMessageError", "setMacroCutouts", "setDeviceCutouts", "cutouts"]
  | .versionValue => ["major", "minor", "build", "revision", "compare"]
  | .boolean | .null | .any => []

/-- The constants of the namespace with the tag. -/
def constants : Tag → List String
  | .point => ["LEFT", "TOP", "RIGHT", "BOTTOM"]
  | .region => ["LEFT", "TOP", "RIGHT", "BOTTOM"]
  | _ => []

/-- The members of values with the tag, constants first. -/
def members (tag : Tag) : List (String × Candidate.Kind) :=
  (constants tag).map (·, .constant) ++ (methods tag).map (·, .method)

/-- The key under which the hint for a member is kept, as in `array.push`. -/
def hintKey (tag : Tag) (member : String) : String :=
  tag.label ++ "." ++ member

/-! ## Names -/

/-- Functions called without a namespace. -/
def builtInFunctions : List String :=
  ["out", "in", "wait", "swipe", "click"]

/-- The keyword that declares a variable. -/
def varKeyword : String :=
  "var"

/-- The other keywords. -/
def keywords : List String :=
  ["if", "else", "while", "do", "for", "return", "fun", "class"]

/-- The bare names of the built-in objects. -/
def builtInObjects : List String :=
  ["Sys", "Map", "Math", "Point", "SwipePoint", "MultiSwipe", "Touch", "Region", "Template",
    "Setting", "OnScreenText", "DateTime", "TimeSpan", "Stopwatch", "Clipboard", "Overlay", "File",
    "Cache", "Env", "Version"]

/-- Words that are values or operators rather than names. -/
def literalWords : List String :=
  ["true", "false", "null", "and", "or", "not"]

/-- The name needs no declaration. -/
def isBuiltIn (name : List Char) : Bool :=
  (literalWords ++ builtInFunctions ++ builtInObjects).any fun word => word.toList == name

end Catalogue

end MacroScript
