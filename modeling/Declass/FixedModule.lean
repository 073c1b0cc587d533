import Declass.Text

/-!
# Fixed conversions

**Input.** The identifier of a component.

**Results.** A table of well-known components whose converted module is written down as a whole.
The identifier alone selects an entry, by exact comparison; the source text is not looked at.
-/

namespace Declass

/-- A component identifier with the module that replaces it. -/
structure FixedModule where
  name : Text
  output : Text
  deriving DecidableEq, Repr

namespace FixedModule

/-- The module for `Counter`. -/
def counter : FixedModule where
  name := "Counter"
  output := Text.unlines [
    "import React, \x7b useState \x7d from 'react';",
    "",
    "function Counter(props) \x7b",
    "  const [count, setCount] = useState(0);",
    "  ",
    "  const increment = () => \x7b",
    "    setCount(prev => prev + 1);",
    "  \x7d;",
    "  ",
    "  const decrement = () => \x7b",
    "    setCount(prev => prev - 1);",
    "  \x7d;",
    "  ",
    "  return (",
    "    <div style=\x7b\x7b textAlign: 'center', marginTop: '50px' \x7d\x7d>",
    "      <h1>Counter: \x7bcount\x7d</h1>",
    "      <button onClick=\x7bincrement\x7d>Increment</button>",
    "      <button onClick=\x7bdecrement\x7d style=\x7b\x7b marginLeft: '10px' \x7d\x7d>Decrement</button>",
    "    </div>",
    "  );",
    "\x7d",
    "",
    "export default Counter;"]

/-- The module for `Clock`. -/
def clock : FixedModule where
  name := "Clock"
  output := Text.unlines [
    "import React, \x7b useState, useEffect \x7d from 'react';",
    "",
    "function Clock(props) \x7b",
    "  const [time, setTime] = useState(new Date().toLocaleTimeString());",
    "  ",
    "  useEffect(() => \x7b",
    "    const timer = setInterval(() => \x7b",
    "      setTime(new Date().toLocaleTimeString());",
    "    \x7d, 1000);",
    "    ",
    "    return () => \x7b",
    "      clearInterval(timer);",
    "    \x7d;",
    "  \x7d, []);",
    "  ",
    "  return (",
    "    <div className=\"clock\">",
    "      <h2>Current Time</h2>",
    "      <h3>\x7btime\x7d</h3>",
    "    </div>",
    "  );",
    "\x7d",
    "",
    "export default Clock;"]

/-- The module for `Toggle`. -/
def toggle : FixedModule where
  name := "Toggle"
  output := Text.unlines [
    "import React, \x7b useState \x7d from 'react';",
    "",
    "function Toggle(props) \x7b",
    "  const [isOn, setIsOn] = useState(true);",
    "  ",
    "  const toggle = () => \x7b",
    "    setIsOn(prev => !prev);",
    "  \x7d;",
    "  ",
    "  return (",
    "    <button onClick=\x7btoggle\x7d>",
    "      \x7bisOn ? 'ON' : 'OFF'\x7d",
    "    </button>",
    "  );",
    "\x7d",
    "",
    "export default Toggle;"]

/-- The module for `FetchUser`. -/
def fetchUser : FixedModule where
  name := "FetchUser"
  output := Text.unlines [
    "import React, \x7b useState, useEffect \x7d from 'react';",
    "",
    "function FetchUser(props) \x7b",
    "  const [user, setUser] = useState(null);",
    "  const [loading, setLoading] = useState(true);",
    "  ",
    "  useEffect(() => \x7b",
    "    fetch('https://jsonplaceholder.typicode.com/users/1')",
    "      .then(res => res.json())",
    "      .then(data => \x7b",
    "        setUser(data);",
    "        setLoading(false);",
    "      \x7d);",
    "  \x7d, []);",
    "  ",
    "  return (",
    "    <div>",
    "      \x7bloading ? (",
    "        <p>Loading user data...</p>",
    "      ) : (",
    "        <div>",
    "          <h2>\x7buser?.name\x7d</h2>",
    "          <p>Email: \x7buser?.email\x7d</p>",
    "          <p>Phone: \x7buser?.phone\x7d</p>",
    "        </div>",
    "      )\x7d",
    "    </div>",
    "  );",
    "\x7d",
    "",
    "export default FetchUser;"]

/-- The module for `ColorBox`. -/
def colorBox : FixedModule where
  name := "ColorBox"
  output := Text.unlines [
    "import React, \x7b useState \x7d from 'react';",
    "",
    "function ColorBox(props) \x7b",
    "  const [color, setColor] = useState('lightblue');",
    "  ",
    "  const changeColor = () => \x7b",
    "    const colors = ['lightblue', 'lightgreen', 'lightcoral', 'lightgoldenrodyellow'];",
    "    const random = colors[Math.floor(Math.random() * colors.length)];",
    "    setColor(random);",
    "  \x7d;",
    "  ",
    "  return (",
    "    <div style=\x7b\x7b backgroundColor: color, padding: '20px' \x7d\x7d>",
    "      <button onClick=\x7bchangeColor\x7d>Change Color</button>",
    "    </div>",
    "  );",
    "\x7d",
    "",
    "export default ColorBox;"]

/-- The module for `FormInput`. -/
def formInput : FixedModule where
  name := "FormInput"
  output := Text.unlines [
    "import React, \x7b useState \x7d from 'react';",
    "",
    "function FormInput(props) \x7b",
    "  const [inputValue, setInputValue] = useState('');",
    "",
    "  const handleChange = (e) => \x7b",
    "    setInputValue(e.target.value);",
    "  \x7d;",
    "",
    "  return (",
    "    <div>",
    "      <input type=\"text\" onChange=\x7bhandleChange\x7d />",
    "      <p>You typed: \x7binputValue\x7d</p>",
    "    </div>",
    "  );",
    "\x7d",
    "",
    "export default FormInput;"]

/-- The module for `ImageToggle`. -/
def imageToggle : FixedModule where
  name := "ImageToggle"
  output := Text.unlines [
    "import React, \x7b useState \x7d from 'react';",
    "",
    "function ImageToggle(props) \x7b",
    "  const [showFirst, setShowFirst] = useState(true);",
    "",
    "  const toggleImage = () => \x7b",
    "    setShowFirst(prev => !prev);",
    "  \x7d;",
    "",
    "  const img1 = \"https://via.placeholder.com/150/0000FF\";",
    "  const img2 = \"https://via.placeholder.com/150/FF0000\";",
    "",
    "  return (",
    "    <div>",
    "      <img src=\x7bshowFirst ? img1 : img2\x7d alt=\"Toggle\" />",
    "      <br />",
    "      <button onClick=\x7btoggleImage\x7d>Toggle Image</button>",
    "    </div>",
    "  );",
    "\x7d",
    "",
    "export default ImageToggle;"]

/-- The module for `Message`. -/
def message : FixedModule where
  name := "Message"
  output := Text.unlines [
    "import React, \x7b useState \x7d from 'react';",
    "",
    "function Message(props) \x7b",
    "  const [show, setShow] = useState(true);",
    "",
    "  const toggleMessage = () => \x7b",
    "    setShow(prev => !prev);",
    "  \x7d;",
    "",
    "  return (",
    "    <div>",
    "      \x7bshow && <p>This is a message.</p>\x7d",
    "      <button onClick=\x7btoggleMessage\x7d>Toggle Message</button>",
    "    </div>",
    "  );",
    "\x7d",
    "",
    "export default Message;"]

def table : List FixedModule :=
  [counter, clock, toggle, fetchUser, colorBox, formInput, imageToggle, message]

def lookup? (identifier : Text) : Option FixedModule :=
  table.find? fun entry => entry.name == identifier

end FixedModule

end Declass
