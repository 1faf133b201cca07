import TildeText.Builtin.Arithmetic
import TildeText.Builtin.Choice
import TildeText.Builtin.Control
import TildeText.Builtin.Text
import TildeText.Builtin.Variable
import TildeText.Eval

namespace TildeText

def Registry.standard : Registry := [
  (utf8 "add", Builtin.add),
  (utf8 "and", Builtin.and),
  (utf8 "append", Builtin.append),
  (utf8 "define", Builtin.define),
  (utf8 "defined?", Builtin.isDefined),
  (utf8 "delete", Builtin.deleteAll),
  (utf8 "div", Builtin.div),
  (utf8 "dump", Builtin.dumpTable),
  (utf8 "entityify", Builtin.entityify),
  (utf8 "eq?", Builtin.eq),
  (utf8 "eval", Builtin.evalText),
  (utf8 "first", Builtin.first),
  (utf8 "ge?", Builtin.ge),
  (utf8 "gensym", Builtin.gensym),
  (utf8 "get", Builtin.get),
  (utf8 "gt?", Builtin.gt),
  (utf8 "include", Builtin.includeFile),
  (utf8 "last", Builtin.last),
  (utf8 "le?", Builtin.le),
  (utf8 "length", Builtin.length),
  (utf8 "literal", Builtin.literal),
  (utf8 "loop", Builtin.loop),
  (utf8 "lt?", Builtin.lt),
  (utf8 "mod", Builtin.mod),
  (utf8 "mult", Builtin.mult),
  (utf8 "mute", Builtin.mute),
  (utf8 "ne?", Builtin.ne),
  (utf8 "null", Builtin.null),
  (utf8 "number?", Builtin.isNumber),
  (utf8 "or", Builtin.or),
  (utf8 "print", Builtin.printArgs),
  (utf8 "read", Builtin.read),
  (utf8 "rep", Builtin.rep),
  (utf8 "set", Builtin.set),
  (utf8 "slashify", Builtin.slashify),
  (utf8 "stop", Builtin.stop),
  (utf8 "sub", Builtin.sub),
  (utf8 "substr", Builtin.substr),
  (utf8 "trim", Builtin.trim),
  (utf8 "unicode", Builtin.unicode),
  (utf8 "write", Builtin.writeFile)]

end TildeText
